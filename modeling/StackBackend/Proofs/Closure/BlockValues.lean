import StackBackend.Proofs.Closure.Storage

/-! The values of blocks after conversion. A block yields its last statement if that is an
expression, and unit otherwise. Conversion drops declarations that leave nothing to do at run
time, so an expression in front of them comes to stand last. -/

namespace StackBackend

open List

variable {rest stmts : List Stmt} {stmt : Stmt} {ty : Ty}

def Stmt.YieldsUnit : Stmt → Prop
  | .declare _ _ | .expr (.initField ..) => True
  | _ => False

namespace Program

variable {p : Program} {plan : ClosurePlan} {f : FunctionId}

/-- Nothing is left of the statement: the variable is in its context already, or the function
needs nothing at run time. -/
def Drops (p : Program) (plan : ClosurePlan) : Stmt → Prop
  | .declare d none => ∃ s, p.LivesIn plan d s
  | .function g => plan.closures.find? g = none
  | _ => False

/-- The expression is a statement that only dropped ones follow. -/
def EndsWith (p : Program) (plan : ClosurePlan) (stmts : List Stmt) (e : Expr) : Prop :=
  ∃ dropped, .expr e :: dropped <:+ stmts ∧ ∀ s ∈ dropped, p.Drops plan s

theorem endsWith_cons {e : Expr} :
    p.EndsWith plan (stmt :: rest) e ↔
      p.EndsWith plan rest e ∨ (stmt = .expr e ∧ ∀ s ∈ rest, p.Drops plan s) := by
  constructor
  · rintro ⟨dropped, hsuffix, hall⟩
    rcases List.suffix_cons_iff.mp hsuffix with heq | hsuffix
    · cases heq
      exact .inr ⟨rfl, hall⟩
    · exact .inl ⟨dropped, hsuffix, hall⟩
  · rintro (⟨dropped, hsuffix, hall⟩ | ⟨rfl, hall⟩)
    · exact ⟨dropped, hsuffix.trans (List.suffix_cons ..), hall⟩
    · exact ⟨rest, List.suffix_rfl, hall⟩

/-- How a block ends, before and after conversion. -/
structure Closes (p : Program) (plan : ClosurePlan) (f : FunctionId) (stmts stmts' : List Stmt) :
    Prop where
  value : ∀ {e}, p.EndsWith plan stmts e →
    ∃ e', stmts'.getLast? = some (.expr e') ∧ p.Converts plan f false e e'
  unit : (∀ e, ¬ p.EndsWith plan stmts e) → ∀ s ∈ stmts'.getLast?, s.YieldsUnit

theorem Closes.prepend {stmts' entry : List Stmt} (h : p.Closes plan f stmts stmts')
    (hentry : ∀ s ∈ entry, s.YieldsUnit) : p.Closes plan f stmts (entry ++ stmts') := by
  refine ⟨fun hends => ?_, fun hnot s hs => ?_⟩
  · obtain ⟨e', hlast, hconverts⟩ := h.value hends
    exact ⟨e', by rw [List.getLast?_append, hlast]; rfl, hconverts⟩
  · rw [List.getLast?_append] at hs
    cases hlast : stmts'.getLast? with
    | none => rw [hlast] at hs; exact hentry s (mem_of_getLast? hs)
    | some s' => rw [hlast] at hs; cases hs; exact h.unit hnot s hlast

theorem Closes.skip {rest' : List Stmt} (h : p.Closes plan f rest rest')
    (hstmt : ∀ e, stmt ≠ .expr e) : p.Closes plan f (stmt :: rest) rest' where
  value he := h.value ((endsWith_cons.mp he).resolve_right fun h => hstmt _ h.1)
  unit hnot := h.unit fun e he => hnot e (endsWith_cons.mpr (.inl he))

theorem ConvertsStmts.eq_nil_iff : ∀ {stmts' : List Stmt},
    p.ConvertsStmts plan f false stmts stmts' → (stmts' = [] ↔ ∀ s ∈ stmts, p.Drops plan s) := by
  induction stmts with
  | nil => intro stmts' h; cases h; simp
  | cons stmt rest ih =>
    intro stmts' h
    rw [forall_mem_cons]
    cases h with
    | allocated hhome htail => exact (ih htail).trans (and_iff_right ⟨_, hhome⟩).symm
    | function hnone htail => exact (ih htail).trans (and_iff_right hnone).symm
    | expr | define | store => exact iff_of_false nofun fun h => h.1
    | declare hfree => exact iff_of_false nofun fun h => h.1.elim hfree
    | closureLocal hg | closureField hg =>
      exact iff_of_false nofun fun h => nomatch hg.symm.trans h.1

theorem ConvertsStmts.closes : ∀ {stmts' : List Stmt},
    p.ConvertsStmts plan f false stmts stmts' → p.Closes plan f stmts stmts' := by
  induction stmts with
  | nil => intro stmts' h; cases h; exact ⟨(fun ⟨_, hsuffix, _⟩ => nomatch List.suffix_nil.mp hsuffix), nofun⟩
  | cons stmt rest ih =>
    intro stmts' h
    cases h with
    | allocated _ htail | function _ htail => exact (ih htail).skip nofun
    | declare _ htail | define _ _ htail | store _ _ _ htail | closureLocal _ _ _ htail
    | closureField _ _ _ _ htail =>
      exact ((ih htail).prepend (forall_mem_singleton.mpr (by exact trivial))).skip nofun
    | @expr e e' _ rest' hhead htail =>
      refine ⟨fun hends => ?_, fun hnot s hs => ?_⟩
      · rcases endsWith_cons.mp hends with he | ⟨heq, hall⟩
        · obtain ⟨x, hlast, hconverts⟩ := (ih htail).value he
          exact ⟨x, by rw [List.getLast?_cons, hlast]; rfl, hconverts⟩
        · cases heq
          rw [htail.eq_nil_iff.mpr hall]
          exact ⟨e', rfl, hhead⟩
      · have hsome : rest' ≠ [] := fun hnil =>
          hnot e (endsWith_cons.mpr (.inr ⟨rfl, htail.eq_nil_iff.mp hnil⟩))
        rw [← singleton_append, List.getLast?_append_of_ne_nil _ hsome] at hs
        exact (ih htail).unit (fun e he => hnot e (endsWith_cons.mpr (.inl he))) s hs

theorem Converts.closes {e' : Expr} (h : p.Converts plan f false (.block ty stmts) e') :
    ∃ stmts', e' = .block ty stmts' ∧ p.Closes plan f stmts stmts' := by
  cases h with
  | plain hplain => cases hplain
  | block entered hinner =>
    refine ⟨_, rfl, hinner.closes.prepend fun s hs => ?_⟩
    obtain ⟨context, _, rfl⟩ := mem_map.mp hs
    trivial

theorem yieldsUnit_copies {context : ContextClass} {params : List DefnId} {copies : List Stmt}
    (h : plan.CopiesParams context params copies) : ∀ s ∈ copies, s.YieldsUnit := by
  induction h with
  | nil => exact forall_mem_nil _
  | skip _ _ ih => exact ih
  | copy _ _ ih => exact forall_mem_cons.mpr ⟨trivial, ih⟩

theorem BodyConverts.closes {decl : FunctionDecl} {body' : Expr}
    (h : p.BodyConverts plan f decl (.block ty stmts) body') :
    ∃ stmts', body' = .block ty stmts' ∧ p.Closes plan f stmts stmts' := by
  obtain ⟨e, hconverts, henters⟩ := h
  obtain ⟨stmts', rfl, hcloses⟩ := hconverts.closes
  cases henters with
  | same => exact ⟨stmts', rfl, hcloses⟩
  | context _ hparams =>
    exact ⟨_, rfl, hcloses.prepend (forall_mem_cons.mpr ⟨trivial, yieldsUnit_copies hparams⟩)⟩

def BlocksClose (p : Program) (plan : ClosurePlan) (p2 q : Program) : Prop :=
  ∀ {f body}, p.bodyOf? f = some body → ∃ decl body', p2.functions[f.index]? = some decl ∧
    q.bodyOf? f = some body' ∧ p2.BodyConverts plan f decl body body' ∧
    (∀ {ty stmts}, body = .block ty stmts →
      ∃ stmts', body' = .block ty stmts' ∧ p2.Closes plan f stmts stmts') ∧
    ∀ {ty stmts e'}, p2.Converts plan f false (.block ty stmts) e' →
      ∃ stmts', e' = .block ty stmts' ∧ p2.Closes plan f stmts stmts'

end Program

/-- After closure conversion a block yields the converted value of the last expression that
only dropped statements follow, and unit if there is none. -/
theorem converted_blocks_close {p q : Program} (hp : p.Consistent)
    (h : Pass.convertClosures.Gives p () q) : ∃ p₁ c plan p₂,
      Pass.resolveReceivers.Gives p () p₁ ∧ p₁.captures = .ok c ∧
      (Pass.addRecords c).Gives p₁ plan p₂ ∧ p₁.BlocksClose plan p₂ q := by
  obtain ⟨p₁, u, needed, c, plan, p₂, hresolve, hc, hrecords, hconversion⟩ :=
    Pass.convertClosures_gives hp h
  refine ⟨p₁, c, plan, p₂, hresolve, hc, hrecords, fun {f body} hbody => ?_⟩
  obtain ⟨decl, body', hdecl, hbody', hconverts⟩ := hconversion.body hbody
  refine ⟨decl, body', hdecl, hbody', hconverts, fun heq => ?_, fun h => h.closes⟩
  subst heq
  exact hconverts.closes

theorem converted_blocks_close_sharing : Program.sharing.Consistent ∧
    Pass.convertClosures.Gives .sharing () (Pass.convertClosures.left .sharing) ∧ ∃ p₁ c plan p₂,
      Pass.resolveReceivers.Gives .sharing () p₁ ∧ p₁.captures = .ok c ∧
      (Pass.addRecords c).Gives p₁ plan p₂ ∧
      p₁.BlocksClose plan p₂ (Pass.convertClosures.left .sharing) := by
  have hp := sharing_constructed.source.consistent
  exact ⟨hp, sharing_converts, converted_blocks_close hp sharing_converts⟩

/-! A nested function that needs nothing is declared last: `f() { 5; fun g = 1 }`. -/

def Program.trailing : Program :=
  .built [
    .function "f" .unit, .nestedFunction ⟨10⟩ "g" .i64, .body ⟨11⟩ (.ofLiteral (.i64 1)),
    .body ⟨10⟩ (.mkBlock [.expr (.ofLiteral (.i64 5)), .function ⟨11⟩])]

/-- The block that yielded unit yields what stands in front of the declaration. -/
theorem trailing_function_dropped : Constructed .trailing ∧
    Pass.convertClosures.Gives .trailing () (Pass.convertClosures.left .trailing) ∧
    Program.trailing.bodyOf? ⟨10⟩ =
      some (.block .unit [.expr (.ofLiteral (.i64 5)), .function ⟨11⟩]) ∧
    (Pass.convertClosures.left .trailing).bodyOf? ⟨10⟩ =
      some (.block .unit [.expr (.ofLiteral (.i64 5))]) := by
  obtain ⟨hgives, hbody⟩ := Pass.gives_of_view Pass.convertClosures (p := .trailing)
    (·.bodyOf? ⟨10⟩) (v := some (.block .unit [.expr (.ofLiteral (.i64 5))])) (by cbv)
  exact ⟨.built (by decide +kernel), hgives, by cbv, hbody⟩

end StackBackend
