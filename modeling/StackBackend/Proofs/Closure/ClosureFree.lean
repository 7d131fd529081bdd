import StackBackend.Proofs.Closure.ConvertedChains

/-! Programs without closures. Receivers are explicit, functions use their own variables, and
nothing that conversion would move is left. Such a program is what conversion gives, if clauses
of nested functions bind their own locals, and conversion leaves it as it is: nothing is
captured, so there are no records to add and no code to change. -/

namespace StackBackend

open List

theorem ChainCall.withArgs_args (call : ChainCall) : call.withArgs call.args = call := by
  cases call <;> rfl

namespace Program

variable {p p1 p2 q : Program} {u : Usage} {needed : RefMap .functions (RefSet .scopes)}
  {c : Captures} {plan : ClosurePlan} {f g : FunctionId} {d : DefnId} {s : ScopeId} {a : Atom}

/-- What code of a function may name where nothing is captured. -/
def Unshared (p : Program) (f : FunctionId) : Atom → Prop
  | .self | .invokeSelf _ | .function _ => False
  | .variable d => p.InOwnFrame f d
  | .declare d => d.index < p.definitions.size ∧ ∀ s, ¬ p.IsFieldOf d (.context s)
  | .call _ | .value _ | .catches _ => True

def IsNested (p : Program) (g : FunctionId) : Prop :=
  (p.bodyOf? g).isSome = true ∧ ∃ outer, p.enclosingFunction g = .ok (some outer)

/-- Conversion makes no object for the function when it is used as a value. -/
def IsPlainValue (p : Program) (g : FunctionId) : Prop :=
  ¬ p.IsNested g ∧ ∃ decl, p.functions[g.index]? = some decl ∧ decl.kind ≠ .global

structure ClosureFree (p : Program) : Prop where
  consistent : p.Consistent
  code : ∀ {f : FunctionId} {decl : FunctionDecl}, p.functions[f.index]? = some decl →
    ∀ a ∈ decl.atoms, p.Unshared f a
  values : ∀ {f g}, .value g ∈ p.bodyAtoms f → p.IsPlainValue g

/-! ## What conversion gives -/

/-- Clauses of nested functions bind their exceptions to locals of these functions. -/
def NestedClausesOwn (p : Program) : Prop :=
  ∀ ⦃f : FunctionId⦄ ⦃decl : FunctionDecl⦄, p.functions[f.index]? = some decl →
    p.OwnClauses f decl.atoms

section

variable (h : p.Conversion p1 u needed c plan p2 q)
include h

theorem Conversion.unshared {named : List Atom} (ha : p2.Settled plan f named a) :
    q.Unshared f a := by
  cases a with
  | self | invokeSelf | function => exact ha
  | «variable» d => exact h.converted.recoded.inOwnFrame.mpr ha
  | declare d =>
    refine ⟨h.converted.recoded.definitions ▸ ha.1, fun s hs => ha.2 s ?_⟩
    rw [IsFieldOf, h.converted.recoded.definitions, h.converted.recoded.classes] at hs
    exact hs
  | call | value | catches => trivial

theorem Conversion.function (hg : plan.closures.find? g = none) {decl : FunctionDecl}
    (hdecl : p.functions[g.index]? = some decl) :
    ∃ body chain, q.functions[g.index]? = some { decl with body, chain } := by
  obtain ⟨body, chain, hdecl1⟩ := h.resolved.recoded.functions hdecl
  have hnone : g ∉ {f | f ∈ c.closures.toList} := by
    intro hmem
    obtain ⟨closure, hclosure⟩ := h.recorded.closures g hmem
    cases hg.symm.trans hclosure
  obtain ⟨body, chain, hq⟩ := h.converted.recoded.functions
    (h.recorded.builds.changes.function_eq hdecl1 hnone)
  exact ⟨body, chain, hq⟩

end

theorem Conversion.hadBody (h : p.Conversion p1 u needed c plan p2 q)
    (hg : g.index < p1.functions.size) (hbody : (q.bodyOf? g).isSome = true) :
    (p1.bodyOf? g).isSome = true := by
  obtain ⟨body, hbody⟩ := Option.isSome_iff_exists.mp hbody
  obtain ⟨decl2, body2, hdecl2, hbody2, _⟩ := h.body_of hbody
  obtain ⟨decl1, hdecl1⟩ := exists_of_lt hg
  obtain ⟨kind, typeParams, params, hdecl'⟩ := h.recorded.function hdecl1
  cases hdecl2.symm.trans hdecl'
  exact Option.isSome_iff_exists.mpr ⟨body2, bodyOf?_eq.mpr ⟨decl1, hdecl1, hbody2⟩⟩

section

variable (hp : p.Consistent) (hknown : p.NamesKnown) (h : p.Conversion p1 u needed c plan p2 q)
include hp hknown h

theorem Conversion.plainValue {named : List Atom} (hnamed : ∀ a ∈ named, a ∈ p1.bodyAtoms f)
    (hg : p2.Settled plan f named (.value g)) : q.IsPlainValue g := by
  obtain ⟨hmem, hvalue, hclosure⟩ := hg
  obtain ⟨hparent, decl, hdecl, hkind⟩ := h.member_of_value hknown (hnamed _ hmem) hvalue hclosure
  obtain ⟨body, chain, hq⟩ := h.function hclosure hdecl
  refine ⟨?_, _, hq, hkind⟩
  rintro ⟨hbody, outer, houter⟩
  have hg1 : g.index < p1.functions.size := h.resolved.recoded.size ▸ lt_of_get hdecl
  have houter1 : p1.enclosingFunction g = .ok (some outer) := by
    rw [← houter, h.converted.recoded.enclosingFunction,
      h.recorded.builds.changes.enclosingFunction (consistent₁ hp h) hg1]
  cases hparent.symm.trans (h.captures.usage.parents.mpr ⟨h.hadBody hg1 hbody, houter1⟩)

theorem Conversion.closureFree (hown : p.NestedClausesOwn) : q.ClosureFree := by
  have hbodies : ∀ f, p1.OwnClauses f (p1.bodyAtoms f) := fun f =>
    h.resolved.recoded.ownClauses (fun _ _ _ houter hd => by
      obtain ⟨decl, hdecl, hd⟩ := mem_atoms_of_body hd
      exact hown hdecl houter hd) fun d hd => by
        rcases h.resolved.named_body hd with ⟨hmem, _⟩ | ⟨_, _, hvariable, _⟩
        · exact hmem
        · cases hvariable
  have hchains : ∀ f, p1.OwnClauses f (p1.chainAtoms f) := fun f =>
    h.resolved.recoded.ownClauses (fun _ _ _ houter hd => by
      obtain ⟨decl, hdecl, hd⟩ := mem_atoms_of_chain hd
      exact hown hdecl houter hd) fun d hd => by
        rcases h.resolved.named_chain hd with ⟨hmem, _⟩ | ⟨_, _, hvariable, _⟩
        · exact hmem
        · cases hvariable
  refine ⟨h.converted.recoded.consistent h.recorded.builds.consistent, fun {f} _ hdecl a ha => ?_,
    fun {f g} hg => ?_⟩
  · rcases (mem_atoms hdecl).mp ha with ha | ha
    · exact h.unshared (settled_body hp h hknown (hbodies f) ha)
    · exact h.unshared (h.settled_chain hp hknown (hchains f) ha)
  · exact h.plainValue hp hknown (fun _ => id) (settled_body hp h hknown (hbodies f) hg)

end

/-! ## Nothing is captured -/

theorem UsageOf.isNested (hu : p.UsageOf u) :
    p.IsNested g ↔ ∃ outer, u.parents.find? g = some outer := by
  simp only [IsNested, hu.parents, exists_and_left]

theorem ClosureFree.body (h : p.ClosureFree) (ha : a ∈ p.bodyAtoms f) : p.Unshared f a := by
  obtain ⟨decl, hdecl, ha⟩ := mem_atoms_of_body ha
  exact h.code hdecl a ha

theorem saturate_of_closed {closures : RefSet .functions}
    (hneeded : p.neededContexts u closures = .ok needed)
    (hclosed : withNeedy u needed closures = closures) (rounds : Nat) :
    p.saturate u rounds closures = .ok (closures, needed) := by
  cases rounds with
  | zero => exact Checked.bind_eq_ok.mpr ⟨needed, hneeded, rfl⟩
  | succ rounds => exact Checked.bind_eq_ok.mpr ⟨needed, hneeded, if_pos hclosed⟩

section

variable (h : p.ClosureFree)
include h

theorem ClosureFree.not_reaches {owner : FunctionId} : ¬ p.Reaches u .empty f s owner := by
  intro hreaches
  cases hreaches with
  | «variable» hd hvar hhome hne =>
    obtain ⟨defn, hdefn, _, hown⟩ := h.body hd
    obtain ⟨defn', hdefn', hkind⟩ := hvar
    cases hdefn.symm.trans hdefn'
    obtain ⟨defn', hdefn', rfl, howner⟩ := hhome
    cases hdefn.symm.trans hdefn'
    cases (hown hkind).symm.trans howner
    exact hne rfl
  | closure _ hclosure => exact absurd hclosure RefSet.mem_empty

theorem ClosureFree.saturate (hu : p.UsageOf u) (rounds : Nat) :
    ∃ needed, p.saturate u rounds .empty = .ok (.empty, needed) := by
  obtain ⟨needed, hneeded⟩ : (p.neededContexts u .empty).Answers :=
    neededContexts_answers h.consistent hu (fun _ hg => absurd hg RefSet.mem_empty)
      fun hreaches => absurd hreaches h.not_reaches
  have hneeds := neededContexts_eq h.consistent hu hneeded
  refine ⟨needed, saturate_of_closed hneeded (RefSet.eq_empty fun g hg => ?_) rounds⟩
  rcases (mem_withNeedy hneeds.sorted).mp hg with hg | ⟨_, s, hs⟩
  · exact RefSet.mem_empty hg
  · obtain ⟨_, _, hreaches, _⟩ := hneeds.source hs
    exact h.not_reaches hreaches

theorem ClosureFree.captures : ∃ c, p.captures = .ok c ∧ c.captured.keys = [] ∧
    c.closures.toList = [] ∧ c.values.toList = [] := by
  have hp := h.consistent
  obtain ⟨u, hu⟩ := usage_answers hp fun {f d} hd => by
    obtain ⟨_, hdefn, _⟩ := h.body hd
    exact lt_of_get hdefn
  have husage := usage_eq_ok hp hu
  have hstart : RefSet.ofList (u.valueUses.filter u.parents.contains) = .empty := by
    refine RefSet.eq_empty fun g hg => ?_
    obtain ⟨hused, hnested⟩ := mem_filter.mp (RefSet.mem_ofList.mp hg)
    obtain ⟨f, hg⟩ := (mem_valueUses husage).mp hused
    exact (h.values hg).1 (husage.isNested.mpr (Option.isSome_iff_exists.mp hnested))
  obtain ⟨needed, hsat⟩ := h.saturate husage u.parents.entries.length
  rw [← hstart] at hsat
  obtain ⟨c, hc, hclosures⟩ := capturesOf_of_saturate hp husage (fun {f g} hg => by
    obtain ⟨_, decl, hdecl, _⟩ := h.values hg
    exact lt_of_get hdecl) hsat
  obtain ⟨needed', hcaptures⟩ := capturesOf_eq hp husage hc
  rw [hstart] at hclosures
  refine ⟨c, Checked.bind_eq_ok.mpr ⟨u, hu, hc⟩, eq_nil_iff_forall_not_mem.mpr fun s hs => ?_,
    by rw [hclosures]; rfl, eq_nil_iff_forall_not_mem.mpr fun g hg => ?_⟩
  · obtain ⟨_, _, hreaches⟩ := isCaptured_iff_reaches.mp ((hcaptures.keys s).mp hs)
    rw [hclosures] at hreaches
    exact h.not_reaches hreaches
  · obtain ⟨f, hused⟩ := hcaptures.used g hg
    obtain ⟨_, decl, hdecl, hkind⟩ := hcaptures.topLevel g hg
    obtain ⟨_, decl', hdecl', hmember⟩ := h.values hused
    cases hdecl.symm.trans hdecl'
    exact hmember hkind

end

/-! ## Nothing is changed -/

theorem Recoded.eq_of_functions (h : p.Recoded q) (hf : q.functions = p.functions) : q = p := by
  obtain ⟨_, _, _, _, _, _, _, _⟩ := p
  obtain ⟨_, _, _, _, _, _, _, _⟩ := q
  obtain ⟨hs, hd, hc, hothers, _, _⟩ := h
  cases hs
  cases hd
  cases hc
  cases hf
  cases hothers
  rfl

theorem RecodesAll.eq {R : FunctionId → FunctionDecl → FunctionDecl → Prop} (h : p.RecodesAll R q)
    (hsame : ∀ {f : FunctionId} {decl decl'}, p.functions[f.index]? = some decl →
      q.functions[f.index]? = some decl' → R f decl decl' → decl' = decl) : q = p := by
  refine h.recoded.eq_of_functions (Array.ext_getElem? fun i => ?_)
  by_cases hi : i < p.functions.size
  · obtain ⟨decl, hdecl⟩ := exists_of_lt hi
    obtain ⟨decl', hdecl', hR⟩ := h.function hdecl
    rw [hdecl', hdecl, @hsame ⟨i⟩ decl decl' hdecl hdecl' hR]
  · have hp : p.functions.size ≤ i := Nat.le_of_not_lt hi
    rw [Array.getElem?_eq_none_iff.mpr hp, Array.getElem?_eq_none_iff.mpr (h.recoded.size ▸ hp)]

section

variable (hempty : plan.contexts = .empty ∧ plan.closures = .empty ∧ plan.values = .empty ∧
  plan.paramFields = .empty ∧ plan.caught = .empty)
include hempty

theorem slot_of_empty (d : DefnId) : plan.slot d = d := by
  rw [ClosurePlan.slot, hempty.2.2.2.1]
  rfl

theorem not_livesIn_of_variable (hd : p.InOwnFrame f d) : ¬ p.LivesIn plan d s := by
  rw [LivesIn, slot_of_empty hempty]
  rintro ⟨defn, cls, _, hdefn, hkind, _⟩
  obtain ⟨defn', hdefn', hfield, _⟩ := hd
  cases hdefn.symm.trans hdefn'
  exact hfield cls hkind

theorem not_livesIn_of_declared (hd : p.Unshared f (.declare d)) : ¬ p.LivesIn plan d s := by
  rw [LivesIn, slot_of_empty hempty]
  exact hd.2 s

theorem Unshared.serves (ha : p.Unshared f a) : p.Serves plan f a := by
  obtain ⟨_, hclosures, _, _, hcaught⟩ := id hempty
  cases a with
  | self | invokeSelf | function => exact ha.elim
  | «variable» d =>
    obtain ⟨defn, hdefn, _, hown⟩ := id ha
    refine ⟨⟨lt_of_get hdefn, by rw [slot_of_empty hempty]; exact lt_of_get hdefn, fun hlives =>
      absurd hlives (not_livesIn_of_variable hempty ha)⟩, fun _ defn' hdefn' hkind => ?_⟩
    cases hdefn.symm.trans hdefn'
    exact hown hkind
  | call g | value g =>
    intro closure hclosure
    rw [hclosures] at hclosure
    cases hclosure
  | declare d =>
    exact ⟨ha.1, by rw [slot_of_empty hempty]; exact ha.1, fun hlives =>
      absurd hlives (not_livesIn_of_declared hempty ha)⟩
  | catches d =>
    intro temp htemp
    rw [hcaught] at htemp
    cases htemp

theorem converts_same (inChain : Bool) : ExprInduction
    (fun e => (∀ a ∈ e.atoms, p.Unshared f a) → ∀ e', p.Converts plan f inChain e e' → e' = e)
    (fun args => (∀ a ∈ atomsOfArgs args, p.Unshared f a) → ∀ args',
      p.ConvertsArgs plan f inChain args args' → args' = args)
    (fun stmts => (∀ a ∈ atomsOfStmts stmts, p.Unshared f a) → ∀ stmts',
      p.ConvertsStmts plan f inChain stmts stmts' → stmts' = stmts)
    (fun clauses => (∀ a ∈ atomsOfClauses clauses, p.Unshared f a) → ∀ clauses',
      p.ConvertsClauses plan f inChain clauses clauses' → clauses' = clauses) where
  plain e he hparts ha e' h := by
    obtain ⟨_, hclosures, hvalues, hparams, _⟩ := id hempty
    rw [Expr.atoms_plain he, forall_mem_append] at ha
    cases h with
    | plain _ _ hargs => rw [hparts ha.2 _ hargs, Expr.withParts_parts]
    | «variable» hreplaces =>
      have hd : p.InOwnFrame f _ := ha.1 _ (mem_singleton_self _)
      cases hreplaces with
      | stored hhome => exact absurd hhome (not_livesIn_of_variable hempty hd)
      | early _ hk => cases hparams ▸ hk
      | kept => rfl
    | value hvalue => rw [hvalues] at hvalue; cases hvalue
    | closure _ hclosure => rw [hclosures] at hclosure; cases hclosure
    | call hclosure => rw [hclosures] at hclosure; cases hclosure
    | block | attempt | cleanup => cases he
  block ty stmts hstmts ha e' h := by
    cases h with
    | plain hplain => cases hplain
    | block entered hinner =>
      have hnone : plan.allocations entered = [] := by
        rw [ClosurePlan.allocations, hempty.1]
        exact congrArg _ (filterMap_eq_nil_iff.mpr fun _ _ => rfl)
      rw [hstmts ha _ hinner, hnone, nil_append]
  attempt ty body clauses hbody hclauses ha e' h := by
    rw [Expr.atoms_attempt, forall_mem_append] at ha
    cases h with
    | plain hplain => cases hplain
    | attempt hhead hhandlers => rw [hbody ha.1 _ hhead, hclauses ha.2 _ hhandlers]
  cleanup ty body clauses last hbody hclauses hlast ha e' h := by
    rw [Expr.atoms_cleanup, forall_mem_append, forall_mem_append] at ha
    cases h with
    | plain hplain => cases hplain
    | cleanup hhead hhandlers hfinal =>
      rw [hbody ha.1 _ hhead, hclauses ha.2.1 _ hhandlers, hlast ha.2.2 _ hfinal]
  noArgs _ _ h := by cases h; rfl
  arg e rest he hrest ha args' h := by
    rw [atomsOfArgs_cons, forall_mem_append] at ha
    cases h with
    | cons hhead htail => rw [he ha.1 _ hhead, hrest ha.2 _ htail]
  noStmts _ _ h := by cases h; rfl
  expr e rest he hrest ha stmts' h := by
    rw [atomsOfStmts_expr, forall_mem_append] at ha
    cases h with
    | expr hhead htail => rw [he ha.1 _ hhead, hrest ha.2 _ htail]
  declare d rest hrest ha stmts' h := by
    rw [atomsOfStmts_declare, forall_mem_cons] at ha
    cases h with
    | declare _ htail => rw [hrest ha.2 _ htail]
    | allocated hhome => exact absurd hhome (not_livesIn_of_declared hempty ha.1)
  define d init rest hinit hrest ha stmts' h := by
    rw [atomsOfStmts_define, forall_mem_cons, forall_mem_append] at ha
    cases h with
    | define _ hhead htail => rw [hinit ha.2.1 _ hhead, hrest ha.2.2 _ htail]
    | store hhome => exact absurd hhome (not_livesIn_of_declared hempty ha.1)
  function g rest hrest ha stmts' h := by
    rw [atomsOfStmts_function, forall_mem_cons] at ha
    exact ha.1.elim
  noClauses _ _ h := by cases h; rfl
  clause binding guard body rest hbody hrest ha clauses' h := by
    rw [atomsOfClauses_cons, forall_mem_append, forall_mem_append] at ha
    cases h with
    | keep _ hhead htail => rw [hbody ha.2.1 _ hhead, hrest ha.2.2 _ htail]
    | store _ htaken => rw [hempty.2.2.2.2] at htaken; cases htaken

theorem functionConverts_same {decl : FunctionDecl} {body : Option Expr} {chain : Option Chain}
    (ha : ∀ a ∈ decl.atoms, p.Unshared f a)
    (h : p.FunctionConverts plan f decl { decl with body, chain }) :
    { decl with body, chain } = decl := by
  have hexprs : ∀ e ∈ decl.exprs, ∀ a ∈ e.atoms, p.Unshared f a :=
    fun e he a ha' => ha a (mem_atomsOfArgs.mpr ⟨e, he, ha'⟩)
  have hbody : body = decl.body := by
    have hrel := h.body
    generalize hdecl : decl.body = body0 at hrel ⊢
    cases hrel with
    | none => rfl
    | @some body0 _ hbodies =>
      obtain ⟨e, hconverts, henters⟩ := hbodies
      have hsame := (converts_same hempty false).exprs body0
        (hexprs body0 (mem_append_left _ (Option.mem_toList.mpr hdecl))) e hconverts
      cases henters with
      | same => rw [hsame]
      | context hcontext => rw [hempty.1] at hcontext; cases hcontext
  have hchain : chain = decl.chain := by
    have hrel := h.chain
    generalize hdecl : decl.chain = chain0 at hrel ⊢
    cases hrel with
    | none => rfl
    | @some chain0 _ hchains =>
      obtain ⟨args, hconverts, rfl⟩ := hchains
      have hsame := (converts_same hempty true).args chain0.call.args (fun a ha' => by
        obtain ⟨e, he, ha'⟩ := mem_atomsOfArgs.mp ha'
        refine hexprs e (mem_append_right _ ?_) a ha'
        rw [hdecl]
        exact he) args hconverts
      rw [hsame, ChainCall.withArgs_args]
  rw [hbody, hchain]

end

end Program

namespace Pass

open Program

variable {p : Program}

theorem resolveReceivers_idle (h : p.ClosureFree) : resolveReceivers.Gives p () p := by
  refine gives_get_bind.mpr (forM_again _ fun i hi => ?_)
  obtain ⟨decl, hdecl⟩ := exists_of_lt (mem_range.mp hi)
  have hcode : ∀ a ∈ decl.atoms, p.Unshared ⟨i⟩ a := h.code (f := ⟨i⟩) hdecl
  obtain ⟨receiver, hreceiver⟩ := receiverWithin_answers h.consistent (p.functions.size + 1)
    (f := ⟨i⟩) (mem_range.mp hi)
  obtain ⟨uses, huses⟩ : (p.implicitUses decl.exprs).Answers := implicitUses_answers
    (fun d hd => by obtain ⟨_, hdefn, _⟩ := hcode _ hd; exact lt_of_get hdefn)
    (fun g hg => (hcode _ hg).elim)
  have hnone : uses = [] := by
    refine (implicitUses_eq_ok huses).2.mpr fun a ha => ?_
    have ha := hcode a ha
    cases a with
    | self | invokeSelf => exact ha.elim
    | «variable» d =>
      obtain ⟨defn, hdefn, hfield, _⟩ := ha
      exact (isField_eq hdefn).mpr hfield
    | _ => rfl
  subst hnone
  exact gives_ask_bind.mpr ⟨receiver, hreceiver, gives_ask_bind.mpr ⟨decl,
    functionAt_eq (f := ⟨i⟩) hdecl, gives_ask_bind.mpr ⟨[], huses, gives_pure.mpr ⟨rfl, rfl⟩⟩⟩⟩

theorem addRecords_idle {c : Captures} (hcaptured : c.captured.keys = [])
    (hclosures : c.closures.toList = []) (hvalues : c.values.toList = []) :
    (addRecords c).Gives p (.ofCaptures c) p := by
  unfold addRecords
  rw [hcaptured, hclosures, hvalues]
  rfl

theorem convertClosures_idle (h : p.ClosureFree) : convertClosures.Gives p () p := by
  obtain ⟨c, hc, hcaptured, hclosures, hvalues⟩ := h.captures
  refine gives_bind.mpr ⟨(), p, resolveReceivers_idle h, gives_ask_bind.mpr ⟨c, hc, gives_bind.mpr
    ⟨.ofCaptures c, p, addRecords_idle hcaptured hclosures hvalues, gives_get_bind.mpr ?_⟩⟩⟩
  have hempty : (ClosurePlan.ofCaptures c).contexts = .empty ∧
      (ClosurePlan.ofCaptures c).closures = .empty ∧ (ClosurePlan.ofCaptures c).values = .empty ∧
      (ClosurePlan.ofCaptures c).paramFields = .empty ∧ (ClosurePlan.ofCaptures c).caught = .empty :=
    ⟨rfl, rfl, rfl, rfl, rfl⟩
  have hcopies : p.CopiesStored (.ofCaptures c) := fun _ _ hk => nomatch hk
  obtain ⟨_, q, hgives, hq⟩ := convertFunctions_ensure h.consistent hcopies
    (fun hcontext => nomatch hcontext) fun hdecl a ha => (h.code hdecl a ha).serves hempty
  have hsame : q = p := RecodesAll.eq hq fun {f decl decl'} hdecl hdecl' hconverts => by
    obtain ⟨body, chain, hrecoded⟩ := hq.recoded.functions hdecl
    cases hdecl'.symm.trans hrecoded
    exact functionConverts_same hempty (h.code hdecl) hconverts
  rw [hsame] at hgives
  exact hgives

end Pass

end StackBackend
