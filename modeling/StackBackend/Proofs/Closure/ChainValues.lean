import StackBackend.Proofs.Closure.ConvertedChains
import StackBackend.Proofs.Closure.LeastCaptures

/-! Functions as values in chain calls. Captures are looked for in bodies only, so a function
that is used as a value in chain calls alone gets no class, and its value stays as it is. -/

namespace StackBackend

open List (mem_append mem_singleton mem_append_right)

namespace Program

variable {p p₁ p₂ q : Program} {u : Usage} {needed : RefMap .functions (RefSet .scopes)}
  {c : Captures} {plan : ClosurePlan} {f g : FunctionId} {inChain : Bool}

theorem converts_keep_value (hvalue : plan.values.find? g = none)
    (hclosure : plan.closures.find? g = none) : ExprInduction
    (fun e => .value g ∈ e.atoms → ∀ e', p.Converts plan f inChain e e' → .value g ∈ e'.atoms)
    (fun args => .value g ∈ atomsOfArgs args → ∀ args', p.ConvertsArgs plan f inChain args args' →
      .value g ∈ atomsOfArgs args')
    (fun stmts => .value g ∈ atomsOfStmts stmts → ∀ stmts',
      p.ConvertsStmts plan f inChain stmts stmts' → .value g ∈ atomsOfStmts stmts')
    (fun clauses => .value g ∈ atomsOfClauses clauses → ∀ clauses',
      p.ConvertsClauses plan f inChain clauses clauses' → .value g ∈ atomsOfClauses clauses') where
  plain e he hparts hmem e' h := by
    rw [Expr.atoms_plain he, mem_append] at hmem
    cases h with
    | plain _ _ hargs =>
      rw [Expr.atoms_withParts he hargs.length, mem_append]
      exact hmem.imp id fun hmem => hparts hmem _ hargs
    | «variable» => simp [Expr.ownAtoms, Expr.parts] at hmem
    | value hrecorded =>
      simp only [Expr.ownAtoms, Expr.parts, atomsOfArgs_nil, mem_singleton, List.not_mem_nil,
        or_false, Atom.value.injEq] at hmem
      cases hmem
      cases hvalue.symm.trans hrecorded
    | closure _ hrecorded =>
      simp only [Expr.ownAtoms, Expr.parts, atomsOfArgs_nil, mem_singleton, List.not_mem_nil,
        or_false, Atom.value.injEq] at hmem
      cases hmem
      cases hclosure.symm.trans hrecorded
    | call _ _ hargs =>
      simp only [Expr.ownAtoms, mem_singleton, reduceCtorEq, false_or] at hmem
      rw [Expr.atoms_plain rfl, Expr.parts, atomsOfArgs_cons]
      exact mem_append_right _ (mem_append_right _ (hparts hmem _ hargs))
    | block | attempt | cleanup => cases he
  block ty stmts hstmts hmem e' h := by
    cases h with
    | plain hplain => cases hplain
    | block _ hinner =>
      rw [Expr.atoms_block, atomsOfStmts_append]
      exact mem_append_right _ (hstmts hmem _ hinner)
  attempt ty body clauses hbody hclauses hmem e' h := by
    cases h with
    | plain hplain => cases hplain
    | attempt hhead hhandlers =>
      rw [Expr.atoms_attempt, mem_append] at hmem ⊢
      exact hmem.imp (hbody · _ hhead) (hclauses · _ hhandlers)
  cleanup ty body clauses last hbody hclauses hlast hmem e' h := by
    cases h with
    | plain hplain => cases hplain
    | cleanup hhead hhandlers hfinal =>
      rw [Expr.atoms_cleanup] at hmem ⊢
      simp only [mem_append] at hmem ⊢
      exact hmem.imp (hbody · _ hhead) (Or.imp (hclauses · _ hhandlers) (hlast · _ hfinal))
  noArgs hmem := by cases hmem
  arg e rest he hrest hmem args' h := by
    cases h with
    | cons hhead htail =>
      rw [atomsOfArgs_cons, mem_append] at hmem ⊢
      exact hmem.imp (he · _ hhead) (hrest · _ htail)
  noStmts hmem := by cases hmem
  expr e rest he hrest hmem stmts' h := by
    cases h with
    | expr hhead htail =>
      rw [atomsOfStmts_expr, mem_append] at hmem ⊢
      exact hmem.imp (he · _ hhead) (hrest · _ htail)
  declare d rest hrest hmem stmts' h := by
    have hmem : .value g ∈ atomsOfStmts rest := by simpa using hmem
    cases h with
    | declare _ htail => exact .tail _ (hrest hmem _ htail)
    | allocated _ htail => exact hrest hmem _ htail
  define d init rest hinit hrest hmem stmts' h := by
    have hmem : .value g ∈ init.atoms ∨ .value g ∈ atomsOfStmts rest := by simpa using hmem
    cases h with
    | define _ hhead htail =>
      rw [atomsOfStmts_define]
      exact .tail _ (mem_append.mpr
        (hmem.imp (hinit · _ hhead) (hrest · _ htail)))
    | store _ _ hhead htail =>
      rw [atomsOfStmts_expr, Expr.mkInitField, Expr.atoms_plain rfl, Expr.parts]
      simp only [atomsOfArgs_cons, mem_append]
      exact hmem.imp (fun h => .inr (.inl (hinit h _ hhead))) (hrest · _ htail)
  function k rest hrest hmem stmts' h := by
    have hmem : .value g ∈ atomsOfStmts rest := by simpa using hmem
    cases h with
    | function _ htail => exact hrest hmem _ htail
    | closureLocal _ _ _ htail | closureField _ _ _ _ htail =>
      simp [hrest hmem _ htail]
  noClauses hmem := by cases hmem
  clause binding guard body rest hbody hrest hmem clauses' h := by
    have hnamed : .value g ∈ body.atoms ∨ .value g ∈ atomsOfClauses rest := by simpa using hmem
    cases h with
    | keep _ hhead htail =>
      rw [atomsOfClauses_cons]
      exact mem_append_right _ (mem_append.mpr
        (hnamed.imp (hbody · _ hhead) (hrest · _ htail)))
    | store _ _ _ _ hhead htail =>
      rw [atomsOfClauses_cons, Expr.atoms_block, atomsOfStmts_append]
      simp only [atomsOfStmts_expr, mem_append]
      exact .inr (hnamed.imp (fun h => .inr (.inr (.inl (hbody h _ hhead)))) (hrest · _ htail))

theorem NodeAfter.value {before : List Node} {n : Node}
    (h : p.NodeAfter plan f inChain before n) (hg : .value g ∈ n.atoms) :
    plan.values.find? g = none ∧ plan.closures.find? g = none ∧
      ∃ n0 ∈ before, .value g ∈ n0.atoms := by
  cases h with
  | @plain e _ hmem _ hleaves hlength =>
    have hown : .value g ∈ e.ownAtoms := (Expr.withParts_eq hlength).2.1 ▸ hg
    cases e with
    | functionValue ty g' =>
      cases mem_singleton.mp hown
      exact ⟨hleaves.1, hleaves.2, _, hmem, hown⟩
    | _ => simp [Expr.ownAtoms] at hown
  | neutral hatoms => rw [hatoms] at hg; cases hg
  | clause | clauseTemp => obtain ⟨_, _, hne⟩ := List.mem_map.mp hg; cases hne
  | _ => simp [Node.atoms, Expr.ownAtoms, Expr.mkNew] at hg

namespace Conversion

variable (h : p.Conversion p₁ u needed c plan p₂ q)
include h

theorem value_chain_iff : .value g ∈ q.chainAtoms f ↔ .value g ∈ p₁.chainAtoms f ∧
    plan.values.find? g = none ∧ plan.closures.find? g = none := by
  rw [chainAtoms_eq_args, chainAtoms_eq_args]
  constructor
  · intro hg
    obtain ⟨n, hn, hg⟩ := List.mem_flatMap.mp hg
    obtain ⟨hvalue, hclosure, hbefore⟩ := ((converts_nodes p₂ plan f true _).args _
      (fun _ hm => hm) _ (h.chainArgs f) n hn).value hg
    exact ⟨List.mem_flatMap.mpr hbefore, hvalue, hclosure⟩
  · rintro ⟨hg, hvalue, hclosure⟩
    exact (converts_keep_value hvalue hclosure).args _ hg _ (h.chainArgs f)

theorem no_class_iff (hp1 : p₁.Consistent) (hc : p₁.captures = .ok c) {decl : FunctionDecl}
    (hdecl : p₁.functions[g.index]? = some decl) (hkind : decl.kind = .global) :
    plan.values.find? g = none ∧ plan.closures.find? g = none ↔
      ¬ p₁.IsClosure g ∧ ∀ k, .value g ∉ p₁.bodyAtoms k := by
  constructor
  · rintro ⟨hvalue, hclosure⟩
    refine ⟨fun hg => ?_, fun k hk => (h.not_global_of_value hdecl hk hvalue hclosure).2 hkind⟩
    obtain ⟨closure, hsome⟩ := h.recorded.closures g (h.captures.closure_found hp1 hg)
    cases hclosure.symm.trans hsome
  · rintro ⟨hnot, hbodies⟩
    refine ⟨Option.eq_none_iff_forall_ne_some.mpr fun value hsome => ?_,
      Option.eq_none_iff_forall_ne_some.mpr fun closure hsome => ?_⟩
    · obtain ⟨k, hk⟩ := h.captures.used g (h.recorded.planned.values hsome).1
      exact hbodies k hk
    · obtain ⟨u, husage, hc⟩ := Checked.bind_eq_ok.mp hc
      exact hnot ((capturesOf_found hp1 (usage_eq_ok hp1 husage) hc).1 g
        (h.recorded.planned.closures hsome).isClosure)

end Conversion

end Program

open Program in
/-- The value of a nested or global function stays in a chain call exactly when the function is
no closure and no body holds it as a value. -/
theorem converted_chain_value_iff {p q : Program} (hp : p.Consistent)
    (h : Pass.convertClosures.Gives p () q) : ∃ p₁, Pass.resolveReceivers.Gives p () p₁ ∧
      ∀ {f g decl}, p₁.functions[g.index]? = some decl → decl.kind = .global →
        (.value g ∈ q.chainAtoms f ↔ .value g ∈ p₁.chainAtoms f ∧
          ¬ p₁.IsClosure g ∧ ∀ k, .value g ∉ p₁.bodyAtoms k) := by
  obtain ⟨p₁, u, needed, c, plan, p₂, hresolve, hc, _, hconversion⟩ :=
    Pass.convertClosures_gives hp h
  refine ⟨p₁, hresolve, fun hdecl hkind => ?_⟩
  rw [hconversion.value_chain_iff,
    hconversion.no_class_iff (hconversion.resolved.recoded.consistent hp) hc hdecl hkind]

/-! A constructor hands on a function as a value and calls a closure in its chain call:
`Item(y) : super({ fun h = y; h() }, g)`. -/

def Program.handing : Program :=
  .built [
    .function "g" .i64, .body ⟨10⟩ (.ofLiteral (.i64 1)),
    .cls "Base", .constructor ⟨4⟩, .param ⟨11⟩ "n" .i64 false, .param ⟨11⟩ "k" (.ofClass objectClass) false,
    .body ⟨11⟩ (.mkBlock []),
    .subclass "Item" ⟨⟨4⟩, [], false⟩, .constructor ⟨5⟩, .param ⟨12⟩ "y" .i64 false,
    .nestedFunction ⟨12⟩ "h" .i64, .body ⟨13⟩ (.variable .i64 ⟨18⟩),
    .chain ⟨12⟩ ⟨.super ⟨11⟩ [.mkBlock [.function ⟨13⟩, .expr (.call .i64 ⟨13⟩ [] [])],
      .mkFunctionValue ⟨10⟩], []⟩,
    .body ⟨12⟩ (.mkBlock [])]

theorem handing_constructed : Constructed .handing := .built (by decide +kernel)

theorem handing_converts : Pass.convertClosures.Gives .handing ()
    (Pass.convertClosures.left .handing) ∧
    ((Pass.convertClosures.left .handing).chainAtoms ⟨12⟩,
      (Pass.convertClosures.left .handing).definitions[19]?.map Definition.name) =
      ([.declare ⟨25⟩, .variable ⟨19⟩, .variable ⟨25⟩, .value ⟨10⟩], some "$context") :=
  Pass.gives_of_view Pass.convertClosures
    (fun q => (q.chainAtoms ⟨12⟩, q.definitions[19]?.map Definition.name)) (by cbv)

theorem converted_chain_value_iff_handing : Program.handing.Consistent ∧
    Pass.convertClosures.Gives .handing () (Pass.convertClosures.left .handing) ∧
    ∃ p₁, Pass.resolveReceivers.Gives .handing () p₁ ∧
      ∀ {f g decl}, p₁.functions[g.index]? = some decl → decl.kind = .global →
        (.value g ∈ (Pass.convertClosures.left .handing).chainAtoms f ↔ .value g ∈ p₁.chainAtoms f ∧
          ¬ p₁.IsClosure g ∧ ∀ k, .value g ∉ p₁.bodyAtoms k) := by
  have hp := handing_constructed.source.consistent
  exact ⟨hp, handing_converts.1, converted_chain_value_iff hp handing_converts.1⟩

/-- The value of the global function stays, and the closure is made from a context that is
allocated only in the body. -/
theorem handing_chain_not_converted : Constructed .handing ∧
    Pass.convertClosures.Gives .handing () (Pass.convertClosures.left .handing) ∧
    (Pass.convertClosures.left .handing).chainAtoms ⟨12⟩ =
      [.declare ⟨25⟩, .variable ⟨19⟩, .variable ⟨25⟩, .value ⟨10⟩] ∧
    (Pass.convertClosures.left .handing).definitions[19]?.map Definition.name = some "$context" := by
  obtain ⟨hgives, hview⟩ := handing_converts
  obtain ⟨hatoms, hname⟩ := Prod.mk.inj hview
  exact ⟨handing_constructed, hgives, hatoms, hname⟩

end StackBackend
