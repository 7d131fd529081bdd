import StackBackend.Proofs.Closure.InReach
import StackBackend.Proofs.Closure.Storage

/-! Programs whose closures can be converted. Bodies use variables of their own function and of
those around it, and declare only what is theirs. Making receivers explicit keeps that so, and
then the contexts that the analysis foresees for a function are all that its code asks for. -/

namespace StackBackend

namespace Program

variable {p q : Program} {u : Usage} {needed : RefMap .functions (RefSet .scopes)}
  {c : Captures} {plan : ClosurePlan} {f g : FunctionId} {d : DefnId} {s : ScopeId} {a : Atom}
  {sees : FunctionId → Prop}

/-! ## Scoping -/

def chainAtoms (p : Program) (f : FunctionId) : List Atom :=
  ((p.functions[f.index]?.bind (·.chain)).map fun chain => atomsOfArgs chain.call.args).getD []

theorem mem_chainAtoms : a ∈ p.chainAtoms f ↔ ∃ decl chain, p.functions[f.index]? = some decl ∧
    decl.chain = some chain ∧ a ∈ atomsOfArgs chain.call.args := by
  unfold chainAtoms
  cases p.functions[f.index]? with
  | none => simp
  | some decl => cases hchain : decl.chain <;> simp [hchain]

theorem chainAtoms_eq {decl : FunctionDecl} {chain : Chain}
    (hdecl : p.functions[f.index]? = some decl) (hchain : decl.chain = some chain) :
    p.chainAtoms f = atomsOfArgs chain.call.args := by
  rw [chainAtoms, hdecl, Option.bind_some, hchain]
  rfl

theorem mem_atoms {decl : FunctionDecl} (hdecl : p.functions[f.index]? = some decl) :
    a ∈ decl.atoms ↔ a ∈ p.bodyAtoms f ∨ a ∈ p.chainAtoms f := by
  rw [FunctionDecl.atoms, FunctionDecl.exprs, atomsOfArgs_append, List.mem_append, bodyAtoms,
    bodyOf?, chainAtoms, hdecl, Option.bind_some, Option.bind_some]
  cases decl.body <;> cases decl.chain <;> simp

def IsMember (p : Program) (g : FunctionId) : Prop :=
  ∃ decl, p.functions[g.index]? = some decl ∧ decl.kind.owner? ≠ none

/-- What code of the function may name if it sees what belongs to the given functions. -/
def InScope (p : Program) (f : FunctionId) (sees : FunctionId → Prop) : Atom → Prop
  | .self | .invokeSelf _ => ∃ g, sees g ∧ p.IsMember g
  | .variable d => (p.isField d = true → ∃ g, sees g ∧ p.IsMember g) ∧
    (p.IsVariable d → ∃ s owner, p.HomeOf d s owner ∧ sees owner)
  | .call g | .value g => ∀ owner, p.enclosingFunction g = .ok (some owner) → sees owner
  | .declare d | .catches d => p.IsVariable d → ∃ s, p.HomeOf d s f
  | .function g => ∀ owner, p.enclosingFunction g = .ok (some owner) → owner = f

structure WellScoped (p : Program) : Prop where
  bodies : ∀ f, ∀ a ∈ p.bodyAtoms f, p.InScope f (p.Within f) a
  /-- Nothing around a constructor can be used before the chain call. -/
  chains : ∀ f, ∀ a ∈ p.chainAtoms f, p.InScope f (· = f) a
  nested : ∀ f g, (p.bodyOf? f).isSome = true → p.enclosingFunction f = .ok (some g) →
    (p.bodyOf? g).isSome = true

theorem InScope.member (h : p.InScope f sees a) (ha : p.isImplicit a = true) :
    ∃ g, sees g ∧ p.IsMember g := by
  cases a with
  | self | invokeSelf => exact h
  | «variable» d => exact h.1 ha
  | _ => cases ha

theorem InScope.mono {sees' : FunctionId → Prop} (h : p.InScope f sees a)
    (hsees : ∀ g, sees g → sees' g) : p.InScope f sees' a := by
  have hmember : (∃ g, sees g ∧ p.IsMember g) → ∃ g, sees' g ∧ p.IsMember g :=
    fun ⟨g, hg, hmember⟩ => ⟨g, hsees g hg, hmember⟩
  cases a with
  | self | invokeSelf => exact hmember h
  | «variable» d =>
    refine ⟨fun hfield => hmember (h.1 hfield), fun hvar => ?_⟩
    obtain ⟨s, owner, hhome, hseen⟩ := h.2 hvar
    exact ⟨s, owner, hhome, hsees owner hseen⟩
  | call | value => exact fun owner howner => hsees owner (h owner howner)
  | declare | catches | function => exact h

/-! ### Checking

A program is checked function by function. To see whether a function is around another one
goes outward step by step. -/

def owner? (p : Program) (g : FunctionId) : Option FunctionId := (p.enclosingFunction g).toOption.join

theorem enclosingFunction_iff : p.enclosingFunction f = .ok (some g) ↔ g ∈ p.owner? f := by
  unfold owner?
  cases p.enclosingFunction f with
  | error _ => simp [Except.toOption]
  | ok o => cases o <;> simp [Except.toOption]

def isWithin (p : Program) : Nat → FunctionId → FunctionId → Bool
  | 0, f, g => f = g
  | n + 1, f, g => f = g || (p.owner? f).any fun outer => isWithin p n outer g

theorem within_of_isWithin (n : Nat) :
    ∀ {f : FunctionId}, p.isWithin n f g = true → p.Within f g := by
  induction n with
  | zero =>
    intro f h
    obtain rfl := of_decide_eq_true h
    exact .here f
  | succ n ih =>
    intro f h
    rw [isWithin, Bool.or_eq_true, Option.any_eq_true] at h
    rcases h with h | ⟨outer, houter, h⟩
    · obtain rfl := of_decide_eq_true h
      exact .here f
    · exact .around (enclosingFunction_iff.mpr houter) (ih h)

instance : Decidable (p.IsMember g) :=
  inferInstanceAs (Decidable (∃ decl ∈ p.functions[g.index]?, decl.kind.owner? ≠ none))

theorem exists_member_iff : (∃ g, sees g ∧ p.IsMember g) ↔
    ∃ i < p.functions.size, sees ⟨i⟩ ∧ p.IsMember ⟨i⟩ := by
  constructor
  · rintro ⟨g, hg, decl, hdecl, howner⟩
    exact ⟨g.index, lt_of_get hdecl, hg, decl, hdecl, howner⟩
  · rintro ⟨i, _, hi, hmember⟩
    exact ⟨⟨i⟩, hi, hmember⟩

theorem exists_home_iff : (∃ s owner, p.HomeOf d s owner ∧ sees owner) ↔
    ∃ defn ∈ p.definitions[d.index]?, ∃ owner ∈ (p.scopeFunction defn.scope).toOption.join,
      sees owner := by
  constructor
  · rintro ⟨_, owner, ⟨defn, hdefn, rfl, howner⟩, hseen⟩
    exact ⟨defn, hdefn, owner, by rw [howner]; rfl, hseen⟩
  · rintro ⟨defn, hdefn, owner, howner, hseen⟩
    refine ⟨_, owner, ⟨defn, hdefn, rfl, Checked.eq_ok_of_toOption ?_⟩, hseen⟩
    exact Option.join_eq_some_iff.mp howner

theorem exists_own_iff : (∃ s, p.HomeOf d s f) ↔
    ∃ defn ∈ p.definitions[d.index]?, p.scopeFunction defn.scope = .ok (some f) :=
  ⟨fun ⟨_, defn, hdefn, hscope, howner⟩ => ⟨defn, hdefn, hscope ▸ howner⟩,
    fun ⟨defn, hdefn, howner⟩ => ⟨_, defn, hdefn, rfl, howner⟩⟩

instance [DecidablePred sees] : DecidablePred (p.InScope f sees)
  | .self | .invokeSelf _ => decidable_of_iff _ exists_member_iff.symm
  | .variable _ => decidable_of_iff _
      (and_congr (imp_congr_right fun _ => exists_member_iff.symm)
        (imp_congr_right fun _ => exists_home_iff.symm))
  | .call g | .value g => decidable_of_iff (∀ owner ∈ p.owner? g, sees owner)
      (forall_congr' fun _ => imp_congr_left enclosingFunction_iff.symm)
  | .declare _ | .catches _ => decidable_of_iff _ (imp_congr_right fun _ => exists_own_iff.symm)
  | .function g => decidable_of_iff (∀ owner ∈ p.owner? g, owner = f)
      (forall_congr' fun _ => imp_congr_left enclosingFunction_iff.symm)

theorem WellScoped.of_checks (steps : Nat)
    (hbodies : ∀ i < p.functions.size, ∀ a ∈ p.bodyAtoms ⟨i⟩,
      p.InScope ⟨i⟩ (p.isWithin steps ⟨i⟩ · = true) a)
    (hchains : ∀ i < p.functions.size, ∀ a ∈ p.chainAtoms ⟨i⟩, p.InScope ⟨i⟩ (· = ⟨i⟩) a)
    (hnested : ∀ i < p.functions.size, (p.bodyOf? ⟨i⟩).isSome = true →
      ∀ g ∈ p.owner? ⟨i⟩, (p.bodyOf? g).isSome = true) : p.WellScoped where
  bodies f a ha := by
    have hscope : p.InScope f (p.isWithin steps f · = true) a :=
      (forall_bodyAtoms_iff (P := fun f => p.InScope f (p.isWithin steps f · = true))).mpr hbodies f a ha
    exact hscope.mono fun _ => within_of_isWithin steps
  chains f a ha := by
    obtain ⟨decl, _, hdecl, _⟩ := mem_chainAtoms.mp ha
    exact hchains f.index (lt_of_get hdecl) a ha
  nested f g hf hg := by
    obtain ⟨body, hbody⟩ := Option.isSome_iff_exists.mp hf
    obtain ⟨decl, hdecl, _⟩ := bodyOf?_eq.mp hbody
    exact hnested f.index (lt_of_get hdecl) hf g (enclosingFunction_iff.mp hg)

/-! ## Receivers -/

section

variable (h : p.Recoded q)
include h

theorem Recoded.within_of (hfg : p.Within f g) : q.Within f g := by
  induction hfg with
  | here f => exact .here f
  | around hg _ ih => exact .around (h.enclosingFunction.trans hg) ih

theorem Recoded.within : q.Within f = p.Within f :=
  funext fun _ => propext ⟨h.symm.within_of, h.within_of⟩

theorem Recoded.isMember : q.IsMember g ↔ p.IsMember g := by
  suffices himp : ∀ {p q : Program}, p.Recoded q → p.IsMember g → q.IsMember g from
    ⟨himp h.symm, himp h⟩
  rintro p q h ⟨decl, hdecl, howner⟩
  obtain ⟨body, chain, hdecl'⟩ := h.functions hdecl
  exact ⟨_, hdecl', howner⟩

theorem Recoded.inScope : q.InScope f sees a ↔ p.InScope f sees a := by
  cases a <;> simp only [InScope, IsVariable, HomeOf, h.isMember, h.isField, h.definitions,
    h.scopeFunction, h.enclosingFunction]

end

section

variable (h : p.Resolved q)
include h

theorem Resolved.named_body (ha : a ∈ q.bodyAtoms f) : p.NamedFrom f (p.bodyAtoms f) a := by
  obtain ⟨body, hbody, ha⟩ := mem_bodyAtoms.mp ha
  obtain ⟨decl, hdecl, hbody⟩ := bodyOf?_eq.mp hbody
  obtain ⟨decl0, hdecl0, hresolves⟩ := h.function_of hdecl
  cases hresolves with
  | same hsame =>
    have hmem : a ∈ p.bodyAtoms f := mem_bodyAtoms.mpr ⟨body, bodyOf?_eq.mpr ⟨_, hdecl0, hbody⟩, ha⟩
    exact .inl ⟨hmem, hsame a ((mem_atoms hdecl0).mpr (.inl hmem))⟩
  | @explicit d ty hd _ _ =>
    obtain ⟨body0, hbody0, rfl⟩ := Option.map_eq_some_iff.mp hbody
    have hnamed : p.NamedFrom f (atomsOfArgs [body0]) a := namedFrom_explicit hd
      (mem_atomsOfArgs.mpr ⟨_, List.mem_singleton_self _, ha⟩)
    rwa [atomsOfArgs_cons, atomsOfArgs_nil, List.append_nil,
      ← bodyAtoms_eq (bodyOf?_eq.mpr ⟨_, hdecl0, hbody0⟩)] at hnamed

theorem Resolved.named_chain (ha : a ∈ q.chainAtoms f) : p.NamedFrom f (p.chainAtoms f) a := by
  obtain ⟨decl, chain, hdecl, hchain, ha⟩ := mem_chainAtoms.mp ha
  obtain ⟨decl0, hdecl0, hresolves⟩ := h.function_of hdecl
  cases hresolves with
  | same hsame =>
    have hmem : a ∈ p.chainAtoms f := mem_chainAtoms.mpr ⟨decl, chain, hdecl0, hchain, ha⟩
    exact .inl ⟨hmem, hsame a ((mem_atoms hdecl0).mpr (.inr hmem))⟩
  | explicit hd _ _ =>
    obtain ⟨chain0, hchain0, rfl⟩ := Option.map_eq_some_iff.mp hchain
    have hargs : ∀ F, (chain0.mapArgs (List.map F)).call.args = chain0.call.args.map F := by
      obtain ⟨call, _⟩ := chain0
      intro F
      cases call <;> rfl
    rw [hargs] at ha
    have hnamed := namedFrom_explicit hd ha
    rwa [← chainAtoms_eq hdecl0 hchain0] at hnamed

end

theorem Recorded.named_chain {c : Captures} {plan : ClosurePlan} (h : p.Recorded c plan q)
    (ha : a ∈ q.chainAtoms f) : a ∈ p.chainAtoms f := by
  obtain ⟨decl, chain, hdecl, hchain, ha⟩ := mem_chainAtoms.mp ha
  by_cases hf : f.index < p.functions.size
  · obtain ⟨decl0, hdecl0⟩ := exists_of_lt hf
    obtain ⟨kind, typeParams, params, hdecl'⟩ := h.function hdecl0
    cases hdecl.symm.trans hdecl'
    exact mem_chainAtoms.mpr ⟨decl0, chain, hdecl0, hchain, ha⟩
  · cases h.functions hdecl (Nat.le_of_not_lt hf) with
    | constructor _ hinert =>
      cases hchain.symm.trans hinert
      cases ha
    | forwarder _ hinert => cases hchain.symm.trans hinert

theorem home_of_receiver (hp : p.Consistent) {decl : FunctionDecl}
    (hdecl : p.functions[g.index]? = some decl) (hd : decl.receiver? = some d) :
    p.HomeOf d decl.scope g := by
  obtain ⟨_, _, hhead⟩ := Option.bind_eq_some_iff.mp hd
  obtain ⟨defn, hdefn, _, hscope⟩ := (hp.function hdecl).params d (List.mem_of_head? hhead)
  exact ⟨defn, hdefn, hscope, scopeFunction_function hp hdecl⟩

theorem NamedFrom.inScope {before : List Atom} (h : p.NamedFrom f before a)
    (hbefore : ∀ b ∈ before, p.InScope f sees b)
    (hreceiver : ∀ d, p.receiverInScope f = .ok (some d) → (∃ g, sees g ∧ p.IsMember g) →
      ∃ s owner, p.HomeOf d s owner ∧ sees owner) : p.InScope f sees a := by
  rcases h with ⟨ha, _⟩ | ⟨d, hd, rfl, b, hb, himp⟩
  · exact hbefore a ha
  · have hmember := (hbefore b hb).member himp
    exact ⟨fun _ => hmember, fun _ => hreceiver d hd hmember⟩

theorem WellScoped.resolved (hp : p.Consistent) (hscoped : p.WellScoped) (h : p.Resolved q) :
    q.WellScoped where
  bodies f a ha := by
    have hf : f.index < p.functions.size := by
      obtain ⟨body, hbody, _⟩ := mem_bodyAtoms.mp ha
      obtain ⟨decl, hdecl, _⟩ := bodyOf?_eq.mp hbody
      exact h.recoded.size ▸ lt_of_get hdecl
    rw [h.recoded.inScope, h.recoded.within]
    refine (h.named_body ha).inScope (hscoped.bodies f) fun d hd _ => ?_
    obtain ⟨g, decl, hg, hdecl, hreceiver⟩ := receiverWithin_sound hp _ hf hd
    exact ⟨_, g, home_of_receiver hp hdecl hreceiver, hg⟩
  chains f a ha := by
    rw [h.recoded.inScope]
    refine (h.named_chain ha).inScope (hscoped.chains f) fun d hd hmember => ?_
    obtain ⟨_, rfl, decl, hdecl, howner⟩ := hmember
    obtain ⟨d', hd'⟩ := receiver_of_member hp hdecl howner
    rw [receiverInScope, receiverWithin_succ hdecl, hd'] at hd
    cases hd
    exact ⟨_, _, home_of_receiver hp hdecl hd', rfl⟩
  nested f g hf hg := by
    have hbody : ∀ k, (q.bodyOf? k).isSome = true ↔ (p.bodyOf? k).isSome = true := by
      intro k
      rw [Option.isSome_iff_exists, Option.isSome_iff_exists]
      constructor
      · rintro ⟨body, hbody⟩
        obtain ⟨body0, hbody0, _⟩ := h.body_of hbody
        exact ⟨body0, hbody0⟩
      · rintro ⟨body0, hbody0⟩
        obtain ⟨body, hbody, _⟩ := h.body hbody0
        exact ⟨body, hbody⟩
    rw [h.recoded.enclosingFunction] at hg
    rw [hbody] at hf ⊢
    exact hscoped.nested f g hf hg

theorem NamesKnown.resolved (hp : p.Consistent) (hknown : p.NamesKnown) (h : p.Resolved q) :
    q.NamesKnown := by
  intro f decl hdecl a ha
  rw [Knows, h.recoded.size, h.recoded.definitions]
  have hf : f.index < p.functions.size := h.recoded.size ▸ lt_of_get hdecl
  obtain ⟨decl0, hdecl0, hresolves⟩ := h.function_of hdecl
  rcases hresolves.atoms ha with ⟨ha, _⟩ | ⟨d, hd, rfl, _⟩
  · exact hknown hdecl0 a ha
  · refine ⟨by simp [Atom.function?], fun _ hd' => ?_⟩
    cases hd'
    obtain ⟨g, outer, _, houter, hreceiver⟩ := receiverWithin_sound hp _ hf hd
    obtain ⟨defn, hdefn, _⟩ := home_of_receiver hp houter hreceiver
    exact lt_of_get hdefn

/-! ## What is captured -/

section

variable (hp : p.Consistent) (hscoped : p.WellScoped)
include hp hscoped

theorem WellScoped.enclosing (hu : p.UsageOf u) {closures : RefSet .functions} {owner : FunctionId}
    (h : p.Reaches u closures f s owner) : owner ∈ u.ancestorsOf f := by
  suffices hwithin : p.Within f owner ∧ owner ≠ f from
    mem_ancestors_of_within hp hu (hscoped.nested _ _) hwithin.1 h.hasBody hwithin.2.symm
  cases h with
  | «variable» hd hvar hhome hne =>
    obtain ⟨t, owner', hhome', hwithin⟩ := (hscoped.bodies f _ hd).2 hvar
    obtain ⟨defn, hdefn, rfl, howner⟩ := hhome
    obtain ⟨defn', hdefn', rfl, howner'⟩ := hhome'
    cases hdefn.symm.trans hdefn'
    cases howner.symm.trans howner'
    exact ⟨hwithin, hne⟩
  | closure hg _ hparent _ hne =>
    have henclosing := (hu.parents.mp hparent).2
    exact ⟨hg.elim (fun hg => hscoped.bodies f _ hg _ henclosing)
      fun hg => hscoped.bodies f _ hg _ henclosing, hne⟩

/-- What a well scoped program captures can be found. -/
theorem WellScoped.captures (hknown : p.NamesKnown) :
    ∃ u needed c, p.captures = .ok c ∧ p.CapturesOf u needed c := by
  have hbody : ∀ {f a}, a ∈ p.bodyAtoms f → (∀ g ∈ a.function?, g.index < p.functions.size) ∧
      ∀ d ∈ a.defn?, d.index < p.definitions.size := by
    intro f a ha
    obtain ⟨body, hbody, _⟩ := mem_bodyAtoms.mp ha
    obtain ⟨decl, hdecl, _⟩ := bodyOf?_eq.mp hbody
    exact hknown hdecl a ((mem_atoms hdecl).mpr (.inl ha))
  obtain ⟨u, hu⟩ := usage_answers hp fun hd => (hbody hd).2 _ rfl
  have husage := usage_eq_ok hp hu
  obtain ⟨c, hc⟩ := capturesOf_answers hp husage (fun hg => (hbody hg).1 _ rfl)
    fun _ hreaches => hscoped.enclosing hp husage hreaches
  obtain ⟨needed, hcaptures⟩ := capturesOf_eq hp husage hc
  exact ⟨u, needed, c, Checked.bind_eq_ok.mpr ⟨u, hu, hc⟩, hcaptures⟩

end

/-! ## What is in reach -/

theorem IsFieldOf.lt_size {o : ClassOrigin} (h : p.IsFieldOf d o) :
    d.index < p.definitions.size := by
  obtain ⟨defn, _, _, hdefn, _⟩ := h
  exact lt_of_get hdefn

theorem IsLocal.lt_size (h : p.IsLocal d s) : d.index < p.definitions.size := by
  obtain ⟨defn, hdefn, _⟩ := h
  exact lt_of_get hdefn

theorem IsParameter.lt_size (h : p.IsParameter d s) : d.index < p.definitions.size := by
  obtain ⟨defn, hdefn, _⟩ := h
  exact lt_of_get hdefn

theorem StoresContexts.field {ks : List ((FunctionId × ScopeId) × DefnId)}
    {constructor : FunctionId} {scopes : List ScopeId} (h : p.StoresContexts ks f constructor scopes)
    (hs : s ∈ scopes) : ∃ k, ks.lookup (f, s) = some k := by
  obtain ⟨_, _, _, fields, _, _, _, _, hfields⟩ := h
  clear * - hfields hs
  induction hfields with
  | nil => cases hs
  | cons hfield _ ih =>
    rcases List.mem_cons.mp hs with rfl | hs
    · exact ⟨_, hfield⟩
    · exact ih hs

section

variable (hp : p.Consistent) (hc : p.CapturesOf u needed c) (h : p.Recorded c plan q)
include hp hc h

theorem Recorded.scopeFunction_key (hs : s ∈ c.captured.keys) :
    q.scopeFunction s = p.scopeFunction s := by
  obtain ⟨owner, howner⟩ := hc.key_owner hs
  exact h.builds.changes.scopes.scopeFunction hp (scope_lt_of_scopeFunction howner)

theorem Recorded.inReach_own (howner : p.scopeFunction s = .ok (some f))
    (hs : s ∈ c.captured.keys) : q.InReach plan f s := by
  obtain ⟨context, hcontext⟩ := h.contexts s hs
  refine .own ?_ hcontext (h.planned.contexts hcontext).localVar.lt_size
  rw [h.scopeFunction_key hp hc hs, howner]

theorem Recorded.inReach_needed (hs : Needs needed f s) : q.InReach plan f s := by
  have hf := hc.saturated.closed hs
  obtain ⟨closure, hclosure⟩ := h.closures f hf
  have hplanned := h.planned.closures hclosure
  obtain ⟨ss, hss⟩ := hc.known f hf
  have hmem : s ∈ (c.needed.find? f).getD [] := by
    rw [hss]
    exact ((hc.contexts hss).2.2 s).mpr hs
  obtain ⟨k, hk⟩ := hplanned.stores.field hmem
  obtain ⟨_, _, hfield⟩ := h.planned.contextFields hk
  obtain ⟨_, _, hreceiver⟩ := hplanned.receiver
  obtain ⟨g, owner, hreaches, hancestor⟩ := hc.saturated.neededBy.source hs
  have hne : owner ≠ f := by
    obtain ⟨parent, hparent, hwithin⟩ := within_of_mem_ancestors hp hc.usage hancestor
    have hlt := hc.usage.parent_lt hp hparent
    have hflt := parent_lt_size hc.usage hparent
    have hle := hwithin.le hp (by omega)
    rintro rfl
    omega
  refine .held ?_ (fun heq => hne (Option.some.inj heq)) hclosure hk hreceiver.lt_size hfield.lt_size
  rw [h.scopeFunction_key hp hc (hc.needed_key hmem)]
  exact hreaches.scopeFunction hc.usage

theorem Recorded.inReach_reached {owner : FunctionId} (hs : s ∈ c.captured.keys)
    (howner : p.scopeFunction s = .ok (some owner))
    (hreaches : owner ≠ f → p.Reaches u c.closures f s owner) : q.InReach plan f s := by
  by_cases heq : owner = f
  · exact h.inReach_own hp hc (heq ▸ howner) hs
  · have hf := hreaches heq
    exact h.inReach_needed hp hc
      ((hc.saturated.neededBy.needs hf.hasBody).mpr (.inl ⟨owner, hf⟩))

theorem Recorded.inReach_nested (hparent : u.parents.find? g = some f)
    (hf : (p.bodyOf? f).isSome = true) (hs : s ∈ plan.neededBy g) : q.InReach plan f s := by
  rw [ClosurePlan.neededBy, h.planned.captures] at hs
  have hkey := hc.needed_key hs
  obtain ⟨owner, howner⟩ := hc.key_owner hkey
  by_cases heq : owner = f
  · exact h.inReach_own hp hc (heq ▸ howner) hkey
  · have hneeds : Needs needed g s := by
      cases hss : c.needed.find? g with
      | none => rw [hss] at hs; cases hs
      | some ss =>
        rw [hss] at hs
        exact ((hc.contexts hss).2.2 s).mp hs
    exact h.inReach_needed hp hc ((hc.saturated.neededBy.needs hf).mpr
      (.inr ⟨g, hparent, hneeds, some owner, howner, fun hsome => heq (Option.some.inj hsome)⟩))

theorem Recorded.usable_closure {closure : ClosureClass} (hg : plan.closures.find? g = some closure)
    (hhome : ∀ owner, p.enclosingFunction g = .ok (some owner) →
      owner = f ∨ .call g ∈ p.bodyAtoms f ∨ .value g ∈ p.bodyAtoms f) :
    q.Usable plan f closure.var := by
  have hplanned := h.planned.closures hg
  have hslot := h.planned.slot_of_fresh hplanned.freshVar
  obtain ⟨owner, hparent⟩ := hc.saturated.nested g hplanned.isClosure
  have henclosing := (hc.usage.parents.mp hparent).2
  have hheld := hplanned.held
  have hknown : closure.var.index < q.definitions.size := by
    cases hheld with
    | field _ hfield => exact hfield.lt_size
    | localVar _ _ hlocal => exact hlocal.lt_size
  refine ⟨⟨hknown, hslot.symm ▸ hknown, fun {s} hlives => ?_⟩, fun hfree => ?_⟩
  · rw [LivesIn, hslot] at hlives
    cases hheld with
    | field hcaptured hfield =>
      cases hlives.origin_unique hfield
      cases (hc.holds s _).mp hcaptured with
      | closure _ _ hparent' hscope _ =>
        cases hparent.symm.trans hparent'
        rw [enclosingFunction, hscope] at henclosing
        refine h.inReach_reached hp hc (hc.holds_key hcaptured) henclosing fun hne => ?_
        exact .closure ((hhome owner (hc.usage.parents.mp hparent).2).resolve_left hne)
          hplanned.isClosure hparent hscope hne
    | localVar _ _ hlocal =>
      obtain ⟨defn, hdefn, hkind, _⟩ := hlocal
      obtain ⟨defn', _, _, hdefn', hkind', _⟩ := hlives
      cases hdefn.symm.trans hdefn'
      cases hkind.symm.trans hkind'
  · cases hheld with
    | @field s _ hfield =>
      refine absurd ?_ (hfree s)
      rw [LivesIn, hslot]
      exact hfield
    | @localVar s hnone hscope hlocal =>
      have heq : owner = f := by
        refine (hhome owner henclosing).elim id fun hused =>
          Classical.byContradiction fun hne => hnone s ?_
        exact (hc.holds s _).mpr (.closure hused hplanned.isClosure hparent hscope hne)
      obtain ⟨defn, hdefn, _, rfl⟩ := hlocal
      intro defn' hdefn' _
      cases hdefn.symm.trans hdefn'
      rw [enclosingFunction, hscope] at henclosing
      rw [h.builds.changes.scopes.scopeFunction hp (scope_lt_of_scopeFunction henclosing), ← heq]
      exact henclosing

omit hp in
theorem Recorded.not_closure_of_value (hg : g ∈ c.values.toList) :
    plan.closures.find? g = none := by
  cases hclosure : plan.closures.find? g with
  | none => rfl
  | some closure =>
    obtain ⟨_, hparent⟩ := hc.saturated.nested g (h.planned.closures hclosure).isClosure
    cases (hc.topLevel g hg).1.symm.trans hparent

omit hp hc in
theorem Recorded.usable_passed (hfresh : p.definitions.size ≤ d.index)
    (hparam : q.IsParameter d s) (hs : q.scopeFunction s = .ok (some f)) : q.Usable plan f d := by
  have hslot := h.planned.slot_of_fresh hfresh
  refine ⟨⟨hparam.lt_size, hslot.symm ▸ hparam.lt_size, fun hlives => ?_⟩, fun _ => ?_⟩
  · rw [LivesIn, hslot] at hlives
    obtain ⟨defn, hdefn, hkind, _⟩ := hparam
    obtain ⟨defn', _, _, hdefn', hkind', _⟩ := hlives
    cases hdefn.symm.trans hdefn'
    cases hkind.symm.trans hkind'
  · obtain ⟨defn, hdefn, _, rfl⟩ := hparam
    intro defn' hdefn' _
    cases hdefn.symm.trans hdefn'
    exact hs

end

/-- The classes that conversion makes are not there. -/
def NoRecords (p : Program) : Prop :=
  ∀ ⦃i : Nat⦄ ⦃cls : ClassDecl⦄, p.classes[i]? = some cls → ∀ s, cls.origin ≠ .context s

section

variable (hp : p.Consistent) (hnew : p.NoRecords) (hc : p.CapturesOf u needed c)
  (h : p.Recorded c plan q)
include hp hnew hc h

theorem Recorded.livesIn_iff (hd : d.index < p.definitions.size) :
    q.LivesIn plan d s ↔ c.captured.Holds s (.variable d) := by
  refine ⟨fun hlives => ?_, h.livesIn hc⟩
  suffices hheld : ∃ t, c.captured.Holds t (.variable d) by
    obtain ⟨t, ht⟩ := hheld
    rwa [hlives.home_unique (h.livesIn hc ht)]
  by_contra hfree
  have hstays : ¬ p.Moves c d := fun hmoves => hfree hmoves.2
  have hslot : plan.slot d = d := by
    cases hk : plan.paramFields.find? d with
    | none => rw [ClosurePlan.slot, hk]; rfl
    | some k =>
      obtain ⟨_, _, t, ht, _⟩ := h.planned.paramFields hk
      exact absurd ⟨t, ht⟩ hfree
  rw [LivesIn, hslot] at hlives
  obtain ⟨defn, k, cls, hdefn, hkind, hcls, horigin⟩ := hlives
  obtain ⟨defn', hdefn'⟩ := exists_of_lt hd
  cases hdefn.symm.trans (h.builds.changes.defn_eq hdefn' hstays)
  obtain ⟨cls', hcls'⟩ := exists_of_lt ((hp.defn hdefn').cls hkind)
  obtain ⟨cls'', hcls'', _, _, _, horigin', _⟩ := h.builds.changes.classes hcls'
  cases hcls.symm.trans hcls''
  exact hnew hcls' s (horigin'.symm.trans horigin)

theorem Recorded.usable_variable (hd : d.index < p.definitions.size)
    (hhome : p.IsVariable d → ∃ s owner, p.HomeOf d s owner ∧
      (owner = f ∨ .variable d ∈ p.bodyAtoms f)) : q.Usable plan f d where
  known := hd.trans_le h.builds.changes.defns_le
  slot := by
    cases hk : plan.paramFields.find? d with
    | none =>
      rw [ClosurePlan.slot, hk]
      exact hd.trans_le h.builds.changes.defns_le
    | some k =>
      obtain ⟨_, _, _, _, hfield⟩ := h.planned.paramFields hk
      rw [ClosurePlan.slot, hk]
      exact hfield.lt_size
  reach {s} hlives := by
    have hheld := (h.livesIn_iff hp hnew hc hd).mp hlives
    cases (hc.holds s _).mp hheld with
    | «variable» _ hvar hhomeOf _ =>
      obtain ⟨t, owner, hhome', hown⟩ := hhome hvar
      obtain ⟨defn, hdefn, rfl, howner⟩ := hhomeOf
      obtain ⟨defn', hdefn', rfl, howner'⟩ := id hhome'
      cases hdefn.symm.trans hdefn'
      exact h.inReach_reached hp hc (hc.holds_key hheld) howner' fun hne =>
        .variable (hown.resolve_left hne) hvar hhome' hne
  frame hfree := by
    intro defn hdefn hkind
    have hstays : ¬ p.Moves c d := by
      rintro ⟨_, s, hheld⟩
      exact hfree s (h.livesIn hc hheld)
    obtain ⟨defn', hdefn'⟩ := exists_of_lt hd
    cases hdefn.symm.trans (h.builds.changes.defn_eq hdefn' hstays)
    have hvar : p.IsVariable d := ⟨defn, hdefn', hkind⟩
    obtain ⟨s, owner, hhomeOf, hown⟩ := hhome hvar
    have heq : owner = f := by
      refine hown.elim id fun hd => Classical.byContradiction fun hne => hfree s ?_
      exact h.livesIn hc ((hc.holds s _).mpr (.variable hd hvar hhomeOf hne))
    obtain ⟨defn'', hdefn'', rfl, howner⟩ := hhomeOf
    cases hdefn'.symm.trans hdefn''
    rw [h.builds.changes.scopes.scopeFunction hp (hp.defn hdefn').scope, howner, heq]

/-- What is in scope is served: in a chain call, where all of it belongs to the function, and
in a body, which the analysis went through. -/
theorem Recorded.serves_of_inScope (hbodies : ∀ g, (p.bodyOf? g).isSome = true →
      p.enclosingFunction g = .ok (some f) → (p.bodyOf? f).isSome = true)
    (ha : p.InScope f sees a) (hfunction : ∀ g ∈ a.function?, g.index < p.functions.size)
    (hdefn : ∀ d ∈ a.defn?, d.index < p.definitions.size)
    (hsees : (∀ g, sees g → g = f) ∨ a ∈ p.bodyAtoms f) : q.Serves plan f a := by
  cases a with
  | self | invokeSelf => trivial
  | «variable» d =>
    refine h.usable_variable hp hnew hc (hdefn d rfl) fun hvar => ?_
    obtain ⟨s, owner, hhome, hseen⟩ := ha.2 hvar
    exact ⟨s, owner, hhome, hsees.imp_left fun hsees => hsees owner hseen⟩
  | call g =>
    intro closure hg
    exact h.usable_closure hp hc hg fun owner howner =>
      hsees.imp (fun hsees => hsees owner (ha owner howner)) .inl
  | value g =>
    intro closure hg
    exact h.usable_closure hp hc hg fun owner howner =>
      hsees.imp (fun hsees => hsees owner (ha owner howner)) .inr
  | declare d =>
    refine (h.usable_variable hp hnew hc (hdefn d rfl) fun hvar => ?_).toStorable
    obtain ⟨s, hhome⟩ := ha hvar
    exact ⟨s, f, hhome, .inl rfl⟩
  | catches d =>
    intro temp htemp
    refine ⟨(h.usable_variable hp hnew hc (hdefn d rfl) fun hvar => ?_).toStorable, ?_⟩
    · obtain ⟨s, hhome⟩ := ha hvar
      exact ⟨s, f, hhome, .inl rfl⟩
    · obtain ⟨_, _, _, _, hlocal⟩ := h.planned.caught htemp
      exact hlocal.lt_size
  | function g =>
    intro closure hg
    obtain ⟨owner, hparent⟩ := hc.saturated.nested g (h.planned.closures hg).isClosure
    obtain ⟨hbody, henclosing⟩ := hc.usage.parents.mp hparent
    obtain rfl := ha owner henclosing
    refine ⟨(hfunction g rfl).trans_le h.builds.changes.functions_le,
      (h.usable_closure hp hc hg fun owner' howner' => .inl (ha owner' howner')).toStorable,
      fun s hs => ?_⟩
    exact h.inReach_nested hp hc hparent (hbodies g hbody henclosing) hs

theorem Recorded.serves (hscoped : p.WellScoped) (hknown : p.NamesKnown) {decl : FunctionDecl}
    (hdecl : q.functions[f.index]? = some decl) (ha : a ∈ decl.atoms) : q.Serves plan f a := by
  have hcode : ∀ {sees}, (∃ decl, p.functions[f.index]? = some decl ∧ a ∈ decl.atoms) →
      p.InScope f sees a → ((∀ g, sees g → g = f) ∨ a ∈ p.bodyAtoms f) → q.Serves plan f a := by
    rintro sees ⟨decl, hdecl, ha⟩ hscope hsees
    obtain ⟨hfunction, hdefn⟩ := hknown hdecl a ha
    exact h.serves_of_inScope hp hnew hc (fun g => hscoped.nested g f) hscope hfunction hdefn hsees
  rcases (mem_atoms hdecl).mp ha with ha | ha
  · obtain ⟨body, hbody, hmem⟩ := mem_bodyAtoms.mp ha
    obtain ⟨decl', hdecl', hbody⟩ := bodyOf?_eq.mp hbody
    cases hdecl.symm.trans hdecl'
    cases h.named hdecl hbody hmem with
    | code hmem => exact hcode (mem_atoms_of_body hmem) (hscoped.bodies f a hmem) (.inr hmem)
    | forwards hvalue =>
      intro closure hclosure
      cases (h.not_closure_of_value hc hvalue).symm.trans hclosure
    | passes hfresh hparam =>
      exact h.usable_passed hfresh hparam (scopeFunction_function h.builds.consistent hdecl)
  · have hmem := h.named_chain ha
    obtain ⟨decl1, _, hdecl1, _⟩ := mem_chainAtoms.mp hmem
    exact hcode ⟨decl1, hdecl1, (mem_atoms hdecl1).mpr (.inr hmem)⟩ (hscoped.chains f a hmem)
      (.inl fun _ => id)

end

end Program

/-- Closures of well scoped programs can be converted: no context is ever out of reach, and no
receiver is missing. -/
theorem well_scoped_programs_convert {p : Program} (hp : Constructed p) (hscoped : p.WellScoped) :
    ∃ q, Pass.convertClosures.Gives p () q := by
  have hsource := hp.source
  have hconsistent := hsource.consistent
  suffices h : Pass.convertClosures.Ensures p fun _ _ => True by
    obtain ⟨_, q, hq, _⟩ := h
    exact ⟨q, hq⟩
  have hknown := hsource.namesKnown
  refine .bind (Program.resolveReceivers_ensures hconsistent
    (fun {i} _ hdecl d hd => (@hknown ⟨i⟩ _ hdecl _ hd).2 d rfl)
    (fun {i} _ hdecl g hg => (@hknown ⟨i⟩ _ hdecl _ hg).1 g rfl) ?_) fun _ p₁ hresolved => ?_
  · intro i decl hdecl a ha himp
    rcases (@Program.mem_atoms p ⟨i⟩ a _ hdecl).mp ha with ha | ha
    · obtain ⟨g, hg, outer, houter, howner⟩ := (hscoped.bodies ⟨i⟩ a ha).member himp
      exact ⟨g, outer, hg, houter, howner⟩
    · obtain ⟨_, rfl, outer, houter, howner⟩ := (hscoped.chains ⟨i⟩ a ha).member himp
      exact ⟨_, outer, .here _, houter, howner⟩
  have hp₁ := hresolved.recoded.consistent hconsistent
  have hscoped₁ := hscoped.resolved hconsistent hresolved
  have hknown₁ := hknown.resolved hconsistent hresolved
  have hnew₁ : p₁.NoRecords := by
    intro i cls hcls s horigin
    rw [hresolved.recoded.classes] at hcls
    rcases hsource.origin hcls with hdeclared | hbuiltin
    · cases hdeclared.symm.trans horigin
    · cases hbuiltin.symm.trans horigin
  obtain ⟨u, needed, c, hc, hcaptures⟩ := hscoped₁.captures hp₁ hknown₁
  refine .ask hc (.bind (Pass.addRecords_ensures hp₁ hcaptures) fun plan p₂ hrecorded => .get ?_)
  refine (Pass.convertFunctions_ensure hrecorded.builds.consistent hrecorded.planned.copiesStored
    (fun hcontext => (hrecorded.planned.contexts hcontext).localVar.lt_size)
    fun hdecl a ha => hrecorded.serves hp₁ hnew₁ hcaptures hscoped₁ hknown₁ hdecl ha).mono ?_
  exact fun _ _ _ => trivial

/-! Functions that are nested in the constructor of a subclass, `C(x) : super(x)`, use its
parameter, a field and each other: `fun g { fun h = y + x + k(); h() }; fun k = g(); g`. -/

def Program.siblings : Program :=
  let call (f : FunctionId) : Expr := .call .i64 f [] []
  .built [
    .cls "B", .constructor ⟨4⟩, .param ⟨10⟩ "n" .i64 false, .body ⟨10⟩ (.mkBlock []),
    .subclass "C" ⟨⟨4⟩, [], false⟩, .field ⟨5⟩ "y" .i64 true none, .constructor ⟨5⟩,
    .param ⟨11⟩ "x" .i64 false, .chain ⟨11⟩ ⟨.super ⟨10⟩ [.variable .i64 ⟨18⟩], []⟩,
    .nestedFunction ⟨11⟩ "g" .i64, .nestedFunction ⟨12⟩ "h" .i64, .nestedFunction ⟨11⟩ "k" .i64,
    .body ⟨13⟩ (.mkBinary .add (.mkBinary .add (.variable .i64 ⟨16⟩) (.variable .i64 ⟨18⟩))
      (call ⟨14⟩)),
    .body ⟨12⟩ (.mkBlock [.function ⟨13⟩, .expr (call ⟨13⟩)]),
    .body ⟨14⟩ (call ⟨12⟩),
    .body ⟨11⟩ (.mkBlock [.function ⟨12⟩, .function ⟨14⟩, .expr (.mkFunctionValue ⟨12⟩)])]

theorem well_scoped_programs_convert_siblings :
    Constructed .siblings ∧ Program.siblings.WellScoped ∧
      ∃ q, Pass.convertClosures.Gives .siblings () q := by
  have hconstructed : Constructed .siblings := .built (by decide +kernel)
  have hscoped : Program.siblings.WellScoped :=
    .of_checks 2 (by decide +kernel) (by decide +kernel) (by decide +kernel)
  exact ⟨hconstructed, hscoped, well_scoped_programs_convert hconstructed hscoped⟩

end StackBackend
