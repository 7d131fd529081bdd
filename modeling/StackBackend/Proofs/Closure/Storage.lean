import StackBackend.Proofs.Closure.Confined

/-! Where captured variables are stored. Each has one place, a field of the context of its
home: itself if it is a local, which moves there, and a copy if it is a parameter. Every use goes
to that place. The slot that the variable had is used once more at most, where a parameter is
copied on entry. Closures are made with the contexts that they need. -/

namespace StackBackend

open List (mem_singleton mem_map mem_cons nodup_cons mem_cons_of_mem)

variable {e : Expr} {ty : Ty} {decl decl0 : FunctionDecl} {g : FunctionId} {closure : ClosureClass}

def Atom.bound? : Atom → Option DefnId
  | .declare d | .catches d => some d
  | _ => none

/-! ## Constructors that code calls -/

def Node.constructor? : Node → Option FunctionId
  | .expr (.new _ _ f _) => some f
  | _ => none

def Node.Creates (P : FunctionId → Prop) (n : Node) : Prop := ∀ f ∈ n.constructor?, P f

theorem Expr.constructor?_withParts (e : Expr) (parts : List Expr) :
    Node.constructor? (.expr (e.withParts parts)) = Node.constructor? (.expr e) := by
  unfold withParts
  split <;> rfl

namespace Program

variable {p p₁ p₂ q : Program} {u : Usage} {needed : RefMap .functions (RefSet .scopes)}
  {c : Captures} {plan : ClosurePlan} {f : FunctionId} {d : DefnId} {s t : ScopeId} {a : Atom}

section

variable {P : FunctionId → Prop} {receiver : DefnId}

theorem all_explicitNode (h : e.All (Node.Creates P)) :
    (p.explicitNode (.variable ty receiver) e).All (Node.Creates P) := by
  cases e with
  | self ty' => exact Expr.all_variable.mpr nofun
  | «variable» ty' d =>
    change Expr.All (Node.Creates P)
      (if p.isField d then .field ty' (.variable ty receiver) d else .variable ty' d)
    split
    · exact Expr.all_field.mpr ⟨nofun, Expr.all_variable.mpr nofun⟩
    · exact h
  | invokeSelf ty' f typeArgs args =>
    exact Expr.all_invoke.mpr ⟨nofun, Expr.all_variable.mpr nofun, ((Expr.all_plain rfl).mp h).2⟩
  | _ => exact h

theorem mapNodes_creates {node : Expr → Id Expr}
    (hnode : ∀ {e : Expr}, e.All (Node.Creates P) → Expr.All (Node.Creates P) (node e)) :
    ExprInduction
      (fun e => e.All (Node.Creates P) → (e.mapNodes node).All (Node.Creates P))
      (fun args => AllArgs (Node.Creates P) args → AllArgs (Node.Creates P) (mapArgs node args))
      (fun stmts => AllStmts (Node.Creates P) stmts →
        AllStmts (Node.Creates P) (mapStmts node stmts))
      (fun clauses => AllClauses (Node.Creates P) clauses →
        AllClauses (Node.Creates P) (mapClauses node clauses)) where
  plain e he hparts h := by
    obtain ⟨hown, hargs⟩ := (Expr.all_plain he).mp h
    obtain ⟨hps, _, hplain⟩ := Expr.withParts_eq (length_mapArgs node e.parts)
    rw [Expr.mapNodes_plain _ he]
    refine hnode ((Expr.all_plain (hplain.trans he)).mpr ⟨?_, ?_⟩)
    · rw [Node.Creates, Expr.constructor?_withParts]
      exact hown
    · rw [hps]
      exact hparts hargs
  block ty' stmts hstmts h := hnode (Expr.all_block.mpr ⟨nofun, hstmts (Expr.all_block.mp h).2⟩)
  attempt ty' body clauses hbody hclauses h := by
    obtain ⟨_, hb, hc⟩ := Expr.all_attempt_none.mp h
    exact hnode (Expr.all_attempt_none.mpr ⟨nofun, hbody hb, hclauses hc⟩)
  cleanup ty' body clauses last hbody hclauses hlast h := by
    obtain ⟨_, hb, hc, hl⟩ := Expr.all_attempt.mp h
    exact hnode (Expr.all_attempt.mpr ⟨nofun, hbody hb, hclauses hc, hlast hl⟩)
  noArgs _ := allArgs_nil
  arg e rest he hrest h := by
    obtain ⟨hhead, htail⟩ := allArgs_cons.mp h
    exact allArgs_cons.mpr ⟨he hhead, hrest htail⟩
  noStmts _ := allStmts_nil
  expr e rest he hrest h := by
    obtain ⟨_, hhead, htail⟩ := allStmts_expr.mp h
    exact allStmts_expr.mpr ⟨nofun, he hhead, hrest htail⟩
  declare d rest hrest h := allStmts_declare.mpr ⟨nofun, hrest (allStmts_declare.mp h).2⟩
  define d init rest hinit hrest h := by
    obtain ⟨_, hhead, htail⟩ := allStmts_define.mp h
    exact allStmts_define.mpr ⟨nofun, hinit hhead, hrest htail⟩
  function f rest hrest h := allStmts_function.mpr ⟨nofun, hrest (allStmts_function.mp h).2⟩
  noClauses _ := allClauses_nil
  clause binding guard body rest hbody hrest h := by
    obtain ⟨_, hhead, htail⟩ := allClauses_cons.mp h
    exact allClauses_cons.mpr ⟨nofun, hbody hhead, hrest htail⟩

end

theorem Source.creates (hp : p.Source) {body : Expr} (hbody : p.bodyOf? f = some body) :
    body.All (Node.Creates (·.index < p.functions.size)) := by
  obtain ⟨decl, hdecl, hbody⟩ := bodyOf?_eq.mp hbody
  intro n hn g hg
  have hknown := List.all_eq_true.mp (hp.code hdecl body
    (List.mem_append_left _ (Option.mem_toList.mpr hbody))) n hn
  rw [Node.knownIn, Bool.and_eq_true, List.all_eq_true] at hknown
  suffices hmem : .function g ∈ n.mentions from of_decide_eq_true (hknown.1 _ hmem)
  unfold Node.constructor? at hg
  split at hg
  · cases hg
    exact List.mem_append_right _ (mem_cons_of_mem _ (List.mem_singleton_self _))
  · cases hg

theorem Resolved.creates (hp : p.Source) (h : p.Resolved q) {body : Expr}
    (hbody : q.bodyOf? f = some body) : body.All (Node.Creates (·.index < p.functions.size)) := by
  obtain ⟨body0, hbody0, rfl | ⟨ty, d, rfl⟩⟩ := h.body_of hbody
  · exact hp.creates hbody0
  · exact (mapNodes_creates all_explicitNode).exprs body0 (hp.creates hbody0)

/-! ## Places -/

/-- The variable is used outside the function it belongs to. -/
def Captured (p : Program) (d : DefnId) (s : ScopeId) : Prop :=
  p.IsVariable d ∧ ∃ f owner, .variable d ∈ p.bodyAtoms f ∧ p.HomeOf d s owner ∧ owner ≠ f

def BindsLocals (p : Program) : Prop :=
  ∀ ⦃f d⦄, .declare d ∈ p.bodyAtoms f ∨ .catches d ∈ p.bodyAtoms f → ¬ p.IsParam d

instance : Decidable (p.IsParam d) :=
  inferInstanceAs (Decidable (∃ defn ∈ p.definitions[d.index]?, defn.kind = .parameter))

instance : Decidable (p.IsVariable d) := inferInstanceAs (Decidable
  (∃ defn ∈ p.definitions[d.index]?, defn.kind = .parameter ∨ defn.kind = .localVar))

instance {owner : FunctionId} : Decidable (p.HomeOf d s owner) := inferInstanceAs (Decidable
  (∃ defn ∈ p.definitions[d.index]?, defn.scope = s ∧ p.scopeFunction s = .ok (some owner)))

theorem bindsLocals_iff :
    p.BindsLocals ↔ ∀ f, ∀ a ∈ p.bodyAtoms f, ∀ d ∈ a.bound?, ¬ p.IsParam d := by
  constructor
  · intro h f a ha d hd
    cases a <;> cases hd
    · exact h (.inl ha)
    · exact h (.inr ha)
  · rintro h f d (hd | hd)
    · exact h f _ hd d rfl
    · exact h f _ hd d rfl

instance : Decidable p.BindsLocals :=
  decidable_of_iff _ (bindsLocals_iff.trans forall_bodyAtoms_iff).symm

theorem Captured.lt_size (hd : p.Captured d s) : d.index < p.definitions.size := by
  obtain ⟨⟨defn, hdefn, _⟩, _⟩ := hd
  exact lt_of_get hdefn

theorem Constructs.origin_unique {o o' : ClassOrigin} (h : p.Constructs f o)
    (h' : p.Constructs f o') : o = o' := by
  obtain ⟨_, _, _, hdecl, hkind, hcls, rfl⟩ := h
  obtain ⟨_, _, _, hdecl', hkind', hcls', rfl⟩ := h'
  cases hdecl.symm.trans hdecl'
  cases hkind.symm.trans hkind'
  cases hcls.symm.trans hcls'
  rfl

/-- A path leads to the context of one scope. -/
theorem Planned.denotes_unique (hplan : p.Planned c plan q) (hs : q.Denotes plan f s e)
    (ht : q.Denotes plan f t e) : s = t := by
  cases hs with
  | @own context _ _ hholds =>
    obtain ⟨defn, hdefn, _, rfl⟩ := (hplan.contexts hholds).localVar
    generalize context.localVar = v at ht hdefn
    cases ht with
    | own _ hholds' =>
      obtain ⟨defn', hdefn', _, rfl⟩ := (hplan.contexts hholds').localVar
      cases hdefn.symm.trans hdefn'
      rfl
  | @held closure _ _ _ _ _ hfield =>
    generalize closure.receiver = v at ht
    cases ht with
    | held _ _ hfield' => exact hplan.apart hfield hfield'

namespace Conversion

variable (h : p.Conversion p₁ u needed c plan p₂ q)
include h

theorem captured_iff : p₁.Captured d s ↔ c.captured.Holds s (.variable d) := by
  rw [h.captures.holds]
  constructor
  · rintro ⟨hvar, f, owner, hd, hhome, hne⟩
    exact .variable hd hvar hhome hne
  · rintro (⟨hd, hvar, hhome, hne⟩)
    exact ⟨hvar, _, _, hd, hhome, hne⟩

theorem slot_of_not_param (hd : ¬ p₁.IsParam d) : plan.slot d = d :=
  h.recorded.planned.slot_of_not_param hd

theorem slot_of_param (hd : p₁.Captured d s) (hparam : p₁.IsParam d) :
    plan.paramFields.find? d = some (plan.slot d) :=
  h.recorded.slot_of_param (h.captured_iff.mp hd) hparam

theorem slot_fresh (hd : p₁.Captured d s) (hparam : p₁.IsParam d) :
    p₁.definitions.size ≤ (plan.slot d).index :=
  (h.recorded.planned.paramFields (h.slot_of_param hd hparam)).2.1

theorem livesIn (hd : p₁.Captured d s) : p₂.LivesIn plan d s :=
  h.recorded.livesIn h.captures (h.captured_iff.mp hd)

theorem slot_injective {d' : DefnId} (hd : p₁.Captured d s) (hd' : p₁.Captured d' t)
    (heq : plan.slot d = plan.slot d') : d = d' := by
  by_cases hparam : p₁.IsParam d <;> by_cases hparam' : p₁.IsParam d'
  · refine h.recorded.planned.distinct (h.slot_of_param hd hparam) ?_
    rw [heq]
    exact h.slot_of_param hd' hparam'
  · have hfresh := h.slot_fresh hd hparam
    rw [heq, h.slot_of_not_param hparam'] at hfresh
    exact absurd hd'.lt_size (by omega)
  · have hfresh := h.slot_fresh hd' hparam'
    rw [← heq, h.slot_of_not_param hparam] at hfresh
    exact absurd hd.lt_size (by omega)
  · rwa [h.slot_of_not_param hparam, h.slot_of_not_param hparam'] at heq

theorem replaces_iff (hd : p₁.Captured d s) : p₂.Replaces plan f false ty d e ↔
      ∃ context, e = .field ty context (plan.slot d) ∧ p₂.Denotes plan f s context := by
  constructor
  · intro hreplaces
    cases hreplaces with
    | stored hhome hpath =>
      rw [(h.livesIn hd).home_unique hhome]
      exact ⟨_, rfl, hpath⟩
    | early hchain => cases hchain
    | kept hfree => exact absurd (h.livesIn hd) (hfree s)
  · rintro ⟨context, rfl, hpath⟩
    exact .stored (h.livesIn hd) hpath

end Conversion

/-! ## Slots -/

def naming (d : DefnId) (atoms : List Atom) : List Atom := atoms.filter (·.defn? = some d)

theorem naming_append {xs ys : List Atom} : naming d (xs ++ ys) = naming d xs ++ naming d ys :=
  List.filter_append _ _

theorem naming_eq_nil {atoms : List Atom} :
    naming d atoms = [] ↔ ∀ a ∈ atoms, a.defn? ≠ some d := by
  unfold naming
  rw [List.filter_eq_nil_iff]
  exact forall₂_congr fun _ _ => by rw [decide_eq_true_iff]

def entryParams (p : Program) (f : FunctionId) : List DefnId :=
  match p.functions[f.index]? with
  | some decl => if decl.body.isSome then decl.params else []
  | none => []

theorem mem_entryParams : d ∈ p.entryParams f ↔
    ∃ decl body, p.functions[f.index]? = some decl ∧ decl.body = some body ∧ d ∈ decl.params := by
  unfold entryParams
  cases hdecl : p.functions[f.index]? with
  | none => simp
  | some decl => cases hbody : decl.body <;> simp [hbody]

theorem atoms_prepend (stmts : List Stmt) (e : Expr) :
    (ConversionSite.prepend stmts e).atoms = atomsOfStmts stmts ++ e.atoms := by
  have hwrap : (Expr.block e.ty (stmts ++ [.expr e])).atoms = atomsOfStmts stmts ++ e.atoms := by
    simp
  cases e with
  | block ty rest => exact atomsOfStmts_append
  | _ => exact hwrap

section

variable {context : ContextClass} {params : List DefnId} {copies : List Stmt}

theorem atoms_copy {ty' : Ty} {k d' : DefnId} : (Expr.mkInitField
    (.variable ty context.localVar) k (.variable ty' d')).atoms =
      [.variable d', .variable context.localVar] := rfl

variable (h : plan.CopiesParams context params copies) (hcontext : context.localVar ≠ d)
include h hcontext

theorem naming_copies_of_notMem (hd : d ∉ params) : naming d (atomsOfStmts copies) = [] := by
  induction h with
  | nil => rfl
  | skip _ _ ih => exact ih fun hmem => hd (mem_cons_of_mem _ hmem)
  | @copy d' _ _ _ _ _ _ _ ih =>
    have hne : d' ≠ d := fun heq => hd (heq ▸ List.mem_cons_self)
    rw [atomsOfStmts_expr, naming_append, ih fun hmem => hd (mem_cons_of_mem _ hmem), atoms_copy]
    simp [naming, Atom.defn?, hne, hcontext]

theorem naming_copies_of_mem (hd : d ∈ params) (hnodup : params.Nodup)
    (hcaptured : plan.paramFields.find? d ≠ none) :
    naming d (atomsOfStmts copies) = [.variable d] := by
  induction h with
  | nil => cases hd
  | @skip d' _ _ hfree _ ih =>
    have hne : d ≠ d' := fun heq => hcaptured (heq ▸ hfree)
    exact ih ((mem_cons.mp hd).resolve_left hne) (nodup_cons.mp hnodup).2
  | @copy d' _ _ _ rest _ _ htail ih =>
    obtain ⟨hnotMem, hnodup⟩ := nodup_cons.mp hnodup
    rw [atomsOfStmts_expr, naming_append, atoms_copy]
    by_cases heq : d' = d
    · rw [heq] at hnotMem ⊢
      rw [naming_copies_of_notMem htail hcontext hnotMem]
      simp [naming, Atom.defn?, hcontext]
    · rw [ih ((mem_cons.mp hd).resolve_left (Ne.symm heq)) hnodup]
      simp [naming, Atom.defn?, heq, hcontext]

end

theorem Recorded.params (h : p₁.Recorded c plan p₂)
    (hdecl : p₁.functions[f.index]? = some decl) : ∃ decl2, p₂.functions[f.index]? = some decl2 ∧
      decl2.scope = decl.scope ∧ decl2.body = decl.body ∧ (decl2.params = decl.params ∨
        ∃ receiver, p₁.definitions.size ≤ receiver.index ∧ decl2.params = receiver :: decl.params) := by
  by_cases hf : f ∈ c.closures.toList
  · obtain ⟨closure, hclosure⟩ := h.closures f hf
    obtain ⟨decl', _, _, hdecl', hmethod, _⟩ := (h.planned.closures hclosure).method
    cases hdecl.symm.trans hdecl'
    exact ⟨_, hmethod, rfl, rfl, .inr ⟨_, (h.planned.closures hclosure).freshReceiver, rfl⟩⟩
  · exact ⟨decl, h.builds.changes.function_eq hdecl hf, rfl, rfl, .inl rfl⟩

namespace Conversion

section

variable (h : p.Conversion p₁ u needed c plan p₂ q)
include h

theorem not_named (hbinds : p₁.BindsLocals) (hd : p₁.Captured d s) {body : Expr}
    {n : Node} (hdecl : p₂.functions[f.index]? = some decl) (hbody : decl.body = some body)
    (hn : p₂.NodeAfter plan f false body.nodes n) : ∀ a ∈ n.atoms, a.defn? ≠ some d := by
  have hplan := h.recorded.planned
  have hfresh : ∀ {v : DefnId}, p₁.definitions.size ≤ v.index → some v ≠ some d := by
    intro v hle heq
    cases heq
    exact absurd hd.lt_size (by omega)
  have hlives := h.livesIn hd
  intro a ha
  cases hn with
  | @plain e parts _ _ hleaves hlength =>
    have ha : a ∈ e.ownAtoms := (Expr.withParts_eq hlength).2.1 ▸ ha
    cases e with
    | «variable» => exact hleaves.elim
    | self | invokeSelf | call | functionValue => cases mem_singleton.mp ha; nofun
    | _ => cases ha
  | neutral hatoms _ => rw [hatoms] at ha; cases ha
  | «variable» _ hstays =>
    cases mem_singleton.mp ha
    intro heq
    cases heq
    obtain ⟨_, hfield, _⟩ := (h.replaces_iff hd).mp hstays
    cases hfield
  | closureVar hclosure _ => cases mem_singleton.mp ha; exact hfresh (hplan.closures hclosure).freshVar
  | context _ hholds => cases mem_singleton.mp ha; exact hfresh (hplan.contexts hholds).fresh
  | receiver hclosure =>
    cases mem_singleton.mp ha
    exact hfresh (hplan.closures hclosure).freshReceiver
  | temp _ htaken _ _ => cases mem_singleton.mp ha; exact hfresh (hplan.caught htaken).2.1
  | newValue | newContext | newClosure => cases ha
  | declare _ hfree =>
    cases mem_singleton.mp ha
    intro heq
    cases heq
    exact hfree s hlives
  | declareContext hholds => cases mem_singleton.mp ha; exact hfresh (hplan.contexts hholds).fresh
  | declareClosure hclosure _ =>
    cases mem_singleton.mp ha
    exact hfresh (hplan.closures hclosure).freshVar
  | @clause binding guard body2 _ hmem hfree =>
    obtain ⟨d', hd', rfl⟩ := mem_map.mp ha
    intro heq
    cases heq
    -- the exception would have been taken by another local
    have hcatches : .catches d ∈ p₁.bodyAtoms f := by
      have hnamed := h.recorded.named hdecl hbody
        (List.mem_flatMap.mpr ⟨_, hmem, mem_map.mpr ⟨d, hd', rfl⟩⟩)
      cases hnamed with
      | code hmem => exact hmem
    obtain ⟨temp, htemp⟩ := h.recorded.caught
      ⟨hbinds (.inr hcatches), s, h.captured_iff.mp hd⟩
      (h.captures.caught ▸ h.captures.usage.caught.mpr ⟨f, hcatches⟩)
    rcases hfree d (Option.mem_toList.mp hd') with hnone | hfree
    · cases hnone.symm.trans htemp
    · exact hfree s hlives
  | clauseTemp _ htaken =>
    obtain ⟨_, hd', rfl⟩ := mem_map.mp ha
    cases mem_singleton.mp hd'
    exact hfresh (hplan.caught htaken).2.1

end

section

variable (hp : p.Source) (h : p.Conversion p₁ u needed c plan p₂ q)
include hp h

omit hp in
theorem body {body : Expr} (hbody : p₁.bodyOf? f = some body) : ∃ decl body',
    p₂.functions[f.index]? = some decl ∧ q.bodyOf? f = some body' ∧
      p₂.BodyConverts plan f decl body body' := by
  obtain ⟨decl1, hdecl1, hbody⟩ := bodyOf?_eq.mp hbody
  obtain ⟨decl, hdecl, _, hbody2, _⟩ := h.recorded.params hdecl1
  obtain ⟨decl', hdecl', hconverts⟩ := h.converted.function hdecl
  have hbodies := hconverts.body
  rw [hbody2, hbody] at hbodies
  generalize hbody' : decl'.body = body' at hbodies
  cases hbodies with | some hbodies
  exact ⟨decl, _, hdecl, bodyOf?_eq.mpr ⟨decl', hdecl', hbody'⟩, hbodies⟩

theorem param_of_mem (hd : p₁.Captured d s)
    (hdecl : p₂.functions[f.index]? = some decl) (hmem : d ∈ decl.params) :
    p₁.IsParam d ∧ decl.scope = s ∧ decl.params.Nodup ∧
      ∃ decl0, p.functions[f.index]? = some decl0 ∧ d ∈ decl0.params := by
  obtain ⟨defn2, hdefn2, hkind2, hscope2⟩ := (h.recorded.builds.consistent.function hdecl).params d hmem
  obtain ⟨defn, hdefn⟩ := exists_of_lt hd.lt_size
  have hstays : ¬ p₁.Moves c d := by
    intro hmoves
    obtain ⟨_, _, _, _, defn', _, _, hdefn', hkind', _⟩ := h.recorded.moved hmoves
    cases hdefn2.symm.trans hdefn'
    cases hkind2.symm.trans hkind'
  cases hdefn2.symm.trans (h.recorded.builds.changes.defn_eq hdefn hstays)
  obtain ⟨_, _, owner, _, ⟨defn', hdefn', rfl, howner⟩, _⟩ := hd
  cases hdefn.symm.trans hdefn'
  have hp1 := consistent₁ hp.consistent h
  have hf : f.index < p₁.functions.size := by
    have hsame := h.recorded.builds.changes.scopes.scopeFunction hp1
      (scope_lt_of_scopeFunction howner)
    have hfunction := scopeFunction_function h.recorded.builds.consistent hdecl
    rw [← hscope2, hsame, howner] at hfunction
    cases hfunction
    obtain ⟨o, ho, hlt⟩ := scopeFunction_ok hp1 (scope_lt_of_scopeFunction howner)
    cases howner.symm.trans ho
    exact hlt _ rfl
  obtain ⟨decl1, hdecl1⟩ := exists_of_lt hf
  obtain ⟨decl0, hdecl0⟩ := exists_of_lt (h.resolved.recoded.size ▸ hf)
  obtain ⟨_, _, hdecl1'⟩ := h.resolved.recoded.functions hdecl0
  cases hdecl1.symm.trans hdecl1'
  obtain ⟨_, hdecl', _, _, hparams⟩ := h.recorded.params hdecl1
  cases hdecl.symm.trans hdecl'
  have hnodup := hp.params hdecl0
  refine ⟨⟨_, hdefn, hkind2⟩, hscope2.symm, ?_, decl0, hdecl0, ?_⟩
  · rcases hparams with hparams | ⟨receiver, hfresh, hparams⟩
    · rw [hparams]
      exact hnodup
    · rw [hparams]
      refine nodup_cons.mpr ⟨fun hreceiver => ?_, hnodup⟩
      obtain ⟨_, hdefn', _⟩ := (hp1.function hdecl1).params receiver hreceiver
      exact absurd (lt_of_get hdefn') (by omega)
  · rcases hparams with hparams | ⟨receiver, hfresh, hparams⟩
    · rwa [hparams] at hmem
    · rw [hparams] at hmem
      refine (mem_cons.mp hmem).resolve_left fun heq => ?_
      have hlt := lt_of_get hdefn
      rw [heq] at hlt
      omega

omit hp in
theorem mem_of_param (hdecl0 : p.functions[f.index]? = some decl0)
    (hmem : d ∈ decl0.params) (hdecl : p₂.functions[f.index]? = some decl) :
    d ∈ decl.params := by
  obtain ⟨_, _, hdecl1⟩ := h.resolved.recoded.functions hdecl0
  obtain ⟨_, hdecl', _, _, hparams⟩ := h.recorded.params hdecl1
  cases hdecl.symm.trans hdecl'
  rcases hparams with hparams | ⟨receiver, _, hparams⟩
  · rw [hparams]
    exact hmem
  · rw [hparams]
    exact mem_cons_of_mem _ hmem

omit hp in
theorem body_before {body : Expr}
    (hdecl0 : p.functions[f.index]? = some decl0) (hdecl : p₂.functions[f.index]? = some decl)
    (hbody : decl.body = some body) : ∃ body0, decl0.body = some body0 := by
  obtain ⟨_, _, hdecl1⟩ := h.resolved.recoded.functions hdecl0
  obtain ⟨_, hdecl', _, hbody', _⟩ := h.recorded.params hdecl1
  cases hdecl.symm.trans hdecl'
  obtain ⟨body0, hbody0, _⟩ := h.resolved.body_of
    (bodyOf?_eq.mpr ⟨_, hdecl1, hbody'.symm.trans hbody⟩)
  obtain ⟨_, hdecl0', hbody0⟩ := bodyOf?_eq.mp hbody0
  cases hdecl0.symm.trans hdecl0'
  exact ⟨body0, hbody0⟩

theorem naming_eq (hbinds : p₁.BindsLocals) (hd : p₁.Captured d s) :
    naming d (q.bodyAtoms f) = if d ∈ p.entryParams f then [.variable d] else [] := by
  cases hbody : q.bodyOf? f with
  | none =>
    have hnone : q.bodyAtoms f = [] := by rw [bodyAtoms, hbody]; rfl
    rw [hnone, if_neg]
    · rfl
    · intro hmem
      obtain ⟨decl0, body0, hdecl0, hbody0, _⟩ := mem_entryParams.mp hmem
      obtain ⟨body1, hbody1, _⟩ := h.resolved.body (bodyOf?_eq.mpr ⟨decl0, hdecl0, hbody0⟩)
      obtain ⟨_, body', _, hbody', _⟩ := h.body hbody1
      cases hbody.symm.trans hbody'
  | some body =>
    have hatoms : q.bodyAtoms f = body.atoms := by rw [bodyAtoms, hbody]; rfl
    obtain ⟨decl, body2, hdecl, hbody2, e, hconverts, henters⟩ := h.body_of hbody
    have hcode : naming d e.atoms = [] := by
      refine naming_eq_nil.mpr fun a ha => ?_
      obtain ⟨n, hn, ha⟩ := List.mem_flatMap.mp ha
      exact h.not_named hbinds hd hdecl hbody2 ((converts_nodes p₂ plan f false body2.nodes).exprs
        body2 (fun _ h => h) e hconverts n hn) a ha
    have hentry : d ∈ p.entryParams f ↔ d ∈ decl.params := by
      rw [mem_entryParams]
      constructor
      · rintro ⟨decl0, _, hdecl0, _, hmem⟩
        exact h.mem_of_param hdecl0 hmem hdecl
      · intro hmem
        obtain ⟨_, _, _, decl0, hdecl0, hmem0⟩ := param_of_mem hp h hd hdecl hmem
        obtain ⟨body0, hbody0⟩ := h.body_before hdecl0 hdecl hbody2
        exact ⟨decl0, body0, hdecl0, hbody0, hmem0⟩
    rw [hatoms]
    cases henters with
    | same hfree =>
      rw [hcode, if_neg]
      intro hmem
      obtain ⟨_, hscope, _⟩ := param_of_mem hp h hd hdecl (hentry.mp hmem)
      obtain ⟨context, hcontext⟩ := h.recorded.contexts s
        ((h.captures.keys s).mpr ⟨_, (h.captures.holds s _).mp (h.captured_iff.mp hd)⟩)
      rw [hscope] at hfree
      cases hfree.symm.trans hcontext
    | @context context copies hholds hcopies =>
      have hne : context.localVar ≠ d := fun heq => by
        have hfresh := (h.recorded.planned.contexts hholds).fresh
        rw [heq] at hfresh
        exact absurd hd.lt_size (by omega)
      have hallocation : naming d (atomsOfStmts (context.allocation :: copies)) =
          naming d (atomsOfStmts copies) := by
        have hatoms : atomsOfStmts (context.allocation :: copies) =
            .declare context.localVar :: atomsOfStmts copies := atomsOfStmts_define
        rw [hatoms, naming, List.filter_cons_of_neg]
        · rfl
        · simpa [Atom.defn?] using hne
      rw [atoms_prepend, naming_append, hcode, List.append_nil, hallocation]
      by_cases hmem : d ∈ decl.params
      · obtain ⟨hparam, _, hnodup, _⟩ := param_of_mem hp h hd hdecl hmem
        rw [if_pos (hentry.mpr hmem)]
        refine naming_copies_of_mem hcopies hne hmem hnodup ?_
        rw [h.slot_of_param hd hparam]
        simp
      · rw [if_neg (mt hentry.mp hmem)]
        exact naming_copies_of_notMem hcopies hne hmem

end

end Conversion

/-! ## Closures -/

namespace Conversion

variable (hp : p.Source) (h : p.Conversion p₁ u needed c plan p₂ q)
include h

section

include hp

theorem creates {body : Expr} (hdecl : p₂.functions[f.index]? = some decl)
    (hbody : decl.body = some body) : body.All (Node.Creates (·.index < p₁.functions.size)) := by
  by_cases hf : f.index < p₁.functions.size
  · obtain ⟨decl1, hdecl1⟩ := exists_of_lt hf
    obtain ⟨_, hdecl', _, hbody', _⟩ := h.recorded.params hdecl1
    cases hdecl.symm.trans hdecl'
    rw [h.resolved.recoded.size]
    exact h.resolved.creates hp (bodyOf?_eq.mpr ⟨decl1, hdecl1, hbody'.symm.trans hbody⟩)
  · cases h.recorded.functions hdecl (Nat.le_of_not_lt hf) with
    | constructor hinert _ =>
      cases hbody.symm.trans hinert
      exact Expr.all_block.mpr ⟨nofun, allStmts_nil⟩
    | forwarder hinert _ _ hargs =>
      cases hbody.symm.trans hinert
      refine Expr.all_call.mpr ⟨nofun, allArgs_iff.mpr fun arg harg => ?_⟩
      obtain ⟨_, _, rfl, _⟩ := hargs arg harg
      exact Expr.all_variable.mpr nofun

theorem allocates (hg : plan.closures.find? g = some closure)
    {body : Expr} (hbody : q.bodyOf? f = some body) {cls : ClassId} {args : List Expr}
    (hnew : .expr (.new ty cls closure.constructor args) ∈ body.nodes) :
    List.Forall₂ (p₂.Denotes plan f) (plan.neededBy g) args := by
  have hplan := h.recorded.planned
  have hconstructs := (hplan.closures hg).constructs
  obtain ⟨decl, body2, hdecl, hbody2, hconverts⟩ := h.body_of hbody
  have hscope := scopeFunction_function h.recorded.builds.consistent hdecl
  have hnode := hconverts.all hscope _ hnew
  generalize hn : Node.expr (.new ty cls closure.constructor args) = n at hnode
  cases hnode with
  | copied => cases hn
  | code hafter =>
    cases hafter with
    | @plain e parts hmem _ _ _ =>
      have hold := h.creates hp hdecl hbody2 _ hmem closure.constructor (by
        rw [← Expr.constructor?_withParts e parts, ← hn]
        rfl)
      exact absurd (hplan.closures hg).new (by omega)
    | neutral _ hcreates => exact absurd hn.symm hcreates
    | newValue hvalue =>
      -- functions at the top level are no closures
      obtain ⟨hmem, _, hconstructs'⟩ := hplan.values hvalue
      rw [(Expr.new.inj (Node.expr.inj hn)).2.2.1] at hconstructs
      cases ClassOrigin.closure.inj (hconstructs.origin_unique hconstructs')
      obtain ⟨_, hparent⟩ := h.captures.saturated.nested g (hplan.closures hg).isClosure
      cases (h.captures.topLevel g hmem).1.symm.trans hparent
    | newContext hholds =>
      rw [(Expr.new.inj (Node.expr.inj hn)).2.2.1] at hconstructs
      cases hconstructs.origin_unique (hplan.contexts hholds).constructs
    | newClosure hg' hargs =>
      obtain ⟨_, _, hsame, rfl⟩ := Expr.new.inj (Node.expr.inj hn)
      rw [hsame] at hconstructs
      cases ClassOrigin.closure.inj (hconstructs.origin_unique (hplan.closures hg').constructs)
      exact hargs
    | _ => cases hn

end

theorem stores (hg : plan.closures.find? g = some closure) :
    q.StoresContexts plan.contextFields g closure.constructor (plan.neededBy g) := by
  obtain ⟨decl, receiver, params, fields, hdecl, hparams, hchain, hlen, hfields⟩ :=
    (h.recorded.planned.closures hg).stores
  rw [← h.recorded.planned.captures] at hfields
  obtain ⟨body, chain, hdecl'⟩ := h.converted.recoded.functions hdecl
  obtain ⟨_, hdecl'', hconverts⟩ := h.converted.function hdecl
  cases hdecl'.symm.trans hdecl''
  have hrel := hconverts.chain
  rw [hchain] at hrel
  cases hrel with | some hrel
  obtain ⟨args, hargs, rfl⟩ := hrel
  exact ⟨_, receiver, params, fields, hdecl', hparams, rfl, hlen, hfields⟩

end Conversion

/-! ## Storage -/

/-- Captured variables of the first program have one place each, which converted code goes to. -/
structure StoredOnce (p p₁ : Program) (plan : ClosurePlan) (p₂ q : Program) : Prop where
  /-- The place is a field of the context of the home. It is the variable itself if that is a
  local, and a new definition if it is a parameter. -/
  place : ∀ {d s}, p₁.Captured d s → p₂.LivesIn plan d s ∧
    (p₁.IsParam d → p₁.definitions.size ≤ (plan.slot d).index) ∧ (¬ p₁.IsParam d → plan.slot d = d)
  distinct : ∀ {d d' s t}, p₁.Captured d s → p₁.Captured d' t → plan.slot d = plan.slot d' → d = d'
  /-- A path leads to one context. -/
  path : ∀ {f s t e}, p₂.Denotes plan f s e → p₂.Denotes plan f t e → s = t
  bodies : ∀ {f body}, p₁.bodyOf? f = some body → ∃ decl body', p₂.functions[f.index]? = some decl ∧
    q.bodyOf? f = some body' ∧ p₂.BodyConverts plan f decl body body'
  uses : ∀ {d s}, p₁.Captured d s → ∀ {f ty e}, p₂.Replaces plan f false ty d e ↔
    ∃ context, e = .field ty context (plan.slot d) ∧ p₂.Denotes plan f s context
  /-- What is bound is stored in its own field. -/
  bound : ∀ {f d}, .declare d ∈ p₁.bodyAtoms f ∨ .catches d ∈ p₁.bodyAtoms f → plan.slot d = d
  /-- Nothing but the copy of a parameter on entry uses the slot from before. -/
  slots : ∀ {d s}, p₁.Captured d s → ∀ f,
    naming d (q.bodyAtoms f) = if d ∈ p.entryParams f then [.variable d] else []
  closures : ∀ {g closure}, plan.closures.find? g = some closure →
    q.StoresContexts plan.contextFields g closure.constructor (plan.neededBy g) ∧
    ∀ {f body ty cls args}, q.bodyOf? f = some body →
      .expr (.new ty cls closure.constructor args) ∈ body.nodes →
        List.Forall₂ (p₂.Denotes plan f) (plan.neededBy g) args

namespace Resolved

variable (h : p.Resolved q)
include h

theorem keeps (ha : a ∈ p.bodyAtoms f) (himp : p.isImplicit a = false) : a ∈ q.bodyAtoms f := by
  obtain ⟨body0, hbody0, ha⟩ := mem_bodyAtoms.mp ha
  obtain ⟨body, hbody, rfl | ⟨ty, d, rfl⟩⟩ := h.body hbody0
  · exact mem_bodyAtoms.mpr ⟨body, hbody, ha⟩
  · exact mem_bodyAtoms.mpr ⟨_, hbody, mem_explicitReceiver.mpr (.inl ⟨ha, himp⟩)⟩

theorem captured (hd : p.Captured d s) : q.Captured d s := by
  obtain ⟨⟨defn, hdefn, hkind⟩, f, owner, hmem, ⟨defn', hdefn', hscope, howner⟩, hne⟩ := hd
  have himp : p.isImplicit (.variable d) = false := (isField_eq hdefn).mpr fun c hfield => by
    rcases hkind with hkind | hkind <;> cases hkind.symm.trans hfield
  have hdefns := h.recoded.definitions
  exact ⟨⟨defn, hdefns ▸ hdefn, hkind⟩, f, owner, h.keeps hmem himp,
    ⟨defn', hdefns ▸ hdefn', hscope, h.recoded.scopeFunction.trans howner⟩, hne⟩

theorem bindsLocals (hbinds : p.BindsLocals) : q.BindsLocals := by
  rintro f d hd ⟨defn, hdefn, hkind⟩
  rw [h.recoded.definitions] at hdefn
  have hd0 : .declare d ∈ p.bodyAtoms f ∨ .catches d ∈ p.bodyAtoms f :=
    hd.imp (fun hd => (h.named hd).resolve_right nofun) fun hd => (h.named hd).resolve_right nofun
  exact hbinds hd0 ⟨defn, hdefn, hkind⟩

end Resolved

theorem Conversion.storedOnce (hp : p.Source) (hbinds : p.BindsLocals)
    (h : p.Conversion p₁ u needed c plan p₂ q) : p.StoredOnce p₁ plan p₂ q where
  place hd := ⟨h.livesIn hd, h.slot_fresh hd, h.slot_of_not_param⟩
  distinct := h.slot_injective
  path := h.recorded.planned.denotes_unique
  bodies := h.body
  uses hd := h.replaces_iff hd
  bound hd := h.slot_of_not_param (h.resolved.bindsLocals hbinds hd)
  slots hd _ := naming_eq hp h (h.resolved.bindsLocals hbinds) hd
  closures hg := ⟨h.stores hg, fun hbody hnew => allocates hp h hg hbody hnew⟩

end Program

/-- Once closures are converted, each captured variable has one place and all code goes there:
receivers are made explicit first, which keeps what is captured, and captures then lead to the
plan of the places. -/
theorem captured_variables_stored_once {p q : Program} (hp : Constructed p) (hbinds : p.BindsLocals)
    (h : Pass.convertClosures.Gives p () q) : ∃ p₁ c plan p₂,
      Pass.resolveReceivers.Gives p () p₁ ∧ p₁.captures = .ok c ∧
      (Pass.addRecords c).Gives p₁ plan p₂ ∧ p₂.Recoded q ∧
      (∀ {d s}, p.Captured d s → p₁.Captured d s) ∧ p.StoredOnce p₁ plan p₂ q := by
  obtain ⟨p₁, u, needed, c, plan, p₂, hresolve, hc, hrecords, hconversion⟩ :=
    Pass.convertClosures_gives hp.source.consistent h
  exact ⟨p₁, c, plan, p₂, hresolve, hc, hrecords, hconversion.converted.recoded,
    hconversion.resolved.captured, hconversion.storedOnce hp.source hbinds⟩

theorem captured_variables_stored_once_sharing :
    Constructed .sharing ∧ Program.sharing.BindsLocals ∧
    Pass.convertClosures.Gives .sharing () (Pass.convertClosures.left .sharing) ∧
    Program.sharing.Captured ⟨16⟩ ⟨16⟩ ∧ Program.sharing.Captured ⟨17⟩ ⟨16⟩ ∧ ∃ p₁ c plan p₂,
      Pass.resolveReceivers.Gives .sharing () p₁ ∧ p₁.captures = .ok c ∧
      (Pass.addRecords c).Gives p₁ plan p₂ ∧ p₂.Recoded (Pass.convertClosures.left .sharing) ∧
      (∀ {d s}, Program.sharing.Captured d s → p₁.Captured d s) ∧
      Program.sharing.StoredOnce p₁ plan p₂ (Pass.convertClosures.left .sharing) := by
  have hbinds : Program.sharing.BindsLocals := by decide +kernel
  have hparam : Program.sharing.Captured ⟨16⟩ ⟨16⟩ :=
    ⟨by decide +kernel, ⟨11⟩, ⟨10⟩, by decide +kernel, by decide +kernel, by decide⟩
  have hlocal : Program.sharing.Captured ⟨17⟩ ⟨16⟩ :=
    ⟨by decide +kernel, ⟨11⟩, ⟨10⟩, by decide +kernel, by decide +kernel, by decide⟩
  exact ⟨sharing_constructed, hbinds, sharing_converts, hparam, hlocal,
    captured_variables_stored_once sharing_constructed hbinds sharing_converts⟩

/-! A captured parameter that is declared again and that a clause binds:
`f(x) { var x = null; fun h = x; try { null } catch (x) { x } }`. -/

def Program.redeclaring : Program :=
  .built [
    .function "f" (.ofClass exceptionClass), .param ⟨10⟩ "x" (.ofClass exceptionClass) true,
    .nestedFunction ⟨10⟩ "h" (.ofClass exceptionClass),
    .body ⟨11⟩ (.variable (.ofClass exceptionClass) ⟨14⟩),
    .body ⟨10⟩ (.mkBlock [.declare ⟨14⟩ (some (.ofLiteral .null)), .function ⟨11⟩,
      .expr (.mkAttempt (.ofLiteral .null)
        [.mk (some ⟨14⟩) none (.variable (.ofClass exceptionClass) ⟨14⟩)] none)])]

def Node.initialized? : Node → Option DefnId
  | .expr (.initField _ _ k _) => some k
  | _ => none

/-- The parameter is copied to its field, but the declaration initialises the parameter as if
that were the field, and the clause still binds the slot. -/
theorem redeclared_parameter_keeps_slot : Constructed .redeclaring ∧
    Pass.convertClosures.Gives .redeclaring () (Pass.convertClosures.left .redeclaring) ∧
    Program.redeclaring.Captured ⟨14⟩ ⟨15⟩ ∧
    Program.naming ⟨14⟩ ((Pass.convertClosures.left .redeclaring).bodyAtoms ⟨10⟩) =
      [.variable ⟨14⟩, .catches ⟨14⟩] ∧
    ((Pass.convertClosures.left .redeclaring).bodyOf? ⟨10⟩).map
      (·.nodes.filterMap Node.initialized?) = some [⟨16⟩, ⟨14⟩] := by
  obtain ⟨hgives, hview⟩ := Pass.gives_of_view Pass.convertClosures (p := .redeclaring)
    (fun q => (Program.naming ⟨14⟩ (q.bodyAtoms ⟨10⟩),
      (q.bodyOf? ⟨10⟩).map (·.nodes.filterMap Node.initialized?)))
    (v := ([.variable ⟨14⟩, .catches ⟨14⟩], some [⟨16⟩, ⟨14⟩])) (by cbv)
  obtain ⟨hslots, hfields⟩ := Prod.mk.inj hview
  exact ⟨.built (by decide +kernel), hgives,
    ⟨by decide +kernel, ⟨11⟩, ⟨10⟩, by decide +kernel, by decide +kernel, by decide⟩, hslots, hfields⟩

end StackBackend
