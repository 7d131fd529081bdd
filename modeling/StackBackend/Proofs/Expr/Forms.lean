import StackBackend.Proofs.Expr.AllNodes

/-! The forms of expressions. All but blocks and handlers consist of a node and of parts
that are expressions, so what holds of them can be said once. -/

namespace StackBackend

namespace Expr

/-- Neither statements nor clauses stand in the expression itself. -/
def isPlain : Expr → Bool
  | .block .. | .attempt .. => false
  | _ => true

/-- The expressions that a plain expression is made of, in order of evaluation. -/
def parts : Expr → List Expr
  | .field _ receiver _ => [receiver]
  | .assign _ target value | .compound _ _ target value => [target, value]
  | .initField _ receiver _ value => [value, receiver]
  | .binary _ _ left right | .and _ left right | .or _ left right => [left, right]
  | .unary _ _ operand | .convert _ operand | .throw _ operand => [operand]
  | .cond _ test onTrue none => [test, onTrue]
  | .cond _ test onTrue (some onFalse) => [test, onTrue, onFalse]
  | .loop _ test body => [test, body]
  | .call _ _ _ args | .invokeSelf _ _ _ args | .new _ _ _ args => args
  | .invoke _ receiver _ _ args => receiver :: args
  | .ret _ (some value) => [value]
  | .literal .. | .uninitialized _ | .self _ | .variable .. | .functionValue .. | .ret _ none
  | .block .. | .attempt .. => []

def withParts : Expr → List Expr → Expr
  | .field ty _ d, [receiver] => .field ty receiver d
  | .assign ty _ _, [target, value] => .assign ty target value
  | .compound ty op _ _, [target, value] => .compound ty op target value
  | .initField ty _ d _, [value, receiver] => .initField ty receiver d value
  | .binary ty op _ _, [left, right] => .binary ty op left right
  | .and ty _ _, [left, right] => .and ty left right
  | .or ty _ _, [left, right] => .or ty left right
  | .unary ty op _, [operand] => .unary ty op operand
  | .convert ty _, [operand] => .convert ty operand
  | .throw ty _, [operand] => .throw ty operand
  | .cond ty _ _ none, [test, onTrue] => .cond ty test onTrue none
  | .cond ty _ _ (some _), [test, onTrue, onFalse] => .cond ty test onTrue (some onFalse)
  | .loop ty _ _, [test, body] => .loop ty test body
  | .call ty f typeArgs _, args => .call ty f typeArgs args
  | .invokeSelf ty f typeArgs _, args => .invokeSelf ty f typeArgs args
  | .new ty c f _, args => .new ty c f args
  | .invoke ty _ f typeArgs _, receiver :: args => .invoke ty receiver f typeArgs args
  | .ret ty (some _), [value] => .ret ty (some value)
  | e, _ => e

variable {e : Expr} {P : Node → Prop}

theorem nodes_plain (he : e.isPlain = true) : e.nodes = .expr e :: nodesOfArgs e.parts := by
  cases e with
  | block | attempt => cases he
  | cond ty test onTrue onFalse => cases onFalse <;> simp [nodes, parts, nodesOfArgs]
  | ret ty value => cases value <;> simp [nodes, parts, nodesOfArgs]
  | _ => simp [nodes, parts, nodesOfArgs]

theorem all_plain (he : e.isPlain = true) : e.All P ↔ P (.expr e) ∧ AllArgs P e.parts := by
  rw [All, nodes_plain he, List.forall_mem_cons]
  rfl

@[simp] theorem withParts_parts : e.withParts e.parts = e := by
  cases e with
  | cond ty test onTrue onFalse => cases onFalse <;> rfl
  | ret ty value => cases value <;> rfl
  | _ => rfl

end Expr

/-- What it takes to prove something of all expressions, lists of arguments, statements and
clauses. -/
structure ExprInduction (P : Expr → Prop) (A : List Expr → Prop) (S : List Stmt → Prop)
    (C : List Clause → Prop) : Prop where
  plain : ∀ e, e.isPlain = true → A e.parts → P e
  block : ∀ ty stmts, S stmts → P (.block ty stmts)
  attempt : ∀ ty body clauses, P body → C clauses → P (.attempt ty body clauses none)
  cleanup : ∀ ty body clauses cleanup, P body → C clauses → P cleanup →
    P (.attempt ty body clauses (some cleanup))
  noArgs : A []
  arg : ∀ e rest, P e → A rest → A (e :: rest)
  noStmts : S []
  expr : ∀ e rest, P e → S rest → S (.expr e :: rest)
  declare : ∀ d rest, S rest → S (.declare d none :: rest)
  define : ∀ d init rest, P init → S rest → S (.declare d (some init) :: rest)
  function : ∀ f rest, S rest → S (.function f :: rest)
  noClauses : C []
  clause : ∀ binding guard body rest, P body → C rest → C (.mk binding guard body :: rest)

namespace ExprInduction

variable {P : Expr → Prop} {A : List Expr → Prop} {S : List Stmt → Prop} {C : List Clause → Prop}
  (h : ExprInduction P A S C)
include h

theorem one {e : Expr} (he : P e) : A [e] := h.arg e [] he h.noArgs

theorem two {e e' : Expr} (he : P e) (he' : P e') : A [e, e'] := h.arg e [e'] he (h.one he')

mutual
theorem exprs : ∀ e : Expr, P e
  | .literal _ _ => h.plain _ rfl h.noArgs
  | .uninitialized _ => h.plain _ rfl h.noArgs
  | .self _ => h.plain _ rfl h.noArgs
  | .variable _ _ => h.plain _ rfl h.noArgs
  | .functionValue _ _ => h.plain _ rfl h.noArgs
  | .field _ receiver _ => h.plain _ rfl (h.one (exprs receiver))
  | .assign _ target value => h.plain _ rfl (h.two (exprs target) (exprs value))
  | .compound _ _ target value => h.plain _ rfl (h.two (exprs target) (exprs value))
  | .initField _ receiver _ value => h.plain _ rfl (h.two (exprs value) (exprs receiver))
  | .binary _ _ left right => h.plain _ rfl (h.two (exprs left) (exprs right))
  | .unary _ _ operand => h.plain _ rfl (h.one (exprs operand))
  | .convert _ operand => h.plain _ rfl (h.one (exprs operand))
  | .and _ left right => h.plain _ rfl (h.two (exprs left) (exprs right))
  | .or _ left right => h.plain _ rfl (h.two (exprs left) (exprs right))
  | .block ty body => h.block ty body (stmts body)
  | .cond _ test onTrue none => h.plain _ rfl (h.two (exprs test) (exprs onTrue))
  | .cond _ test onTrue (some onFalse) =>
    h.plain _ rfl (h.arg _ _ (exprs test) (h.two (exprs onTrue) (exprs onFalse)))
  | .loop _ test body => h.plain _ rfl (h.two (exprs test) (exprs body))
  | .call _ _ _ operands => h.plain _ rfl (args operands)
  | .invoke _ receiver _ _ operands =>
    h.plain _ rfl (h.arg _ _ (exprs receiver) (args operands))
  | .invokeSelf _ _ _ operands => h.plain _ rfl (args operands)
  | .new _ _ _ operands => h.plain _ rfl (args operands)
  | .throw _ operand => h.plain _ rfl (h.one (exprs operand))
  | .ret _ none => h.plain _ rfl h.noArgs
  | .ret _ (some value) => h.plain _ rfl (h.one (exprs value))
  | .attempt ty body handlers none => h.attempt ty body handlers (exprs body) (clauses handlers)
  | .attempt ty body handlers (some last) =>
    h.cleanup ty body handlers last (exprs body) (clauses handlers) (exprs last)
theorem args : ∀ operands : List Expr, A operands
  | [] => h.noArgs
  | e :: rest => h.arg e rest (exprs e) (args rest)
theorem stmts : ∀ body : List Stmt, S body
  | [] => h.noStmts
  | .expr e :: rest => h.expr e rest (exprs e) (stmts rest)
  | .declare d none :: rest => h.declare d rest (stmts rest)
  | .declare d (some init) :: rest => h.define d init rest (exprs init) (stmts rest)
  | .function f :: rest => h.function f rest (stmts rest)
theorem clauses : ∀ handlers : List Clause, C handlers
  | [] => h.noClauses
  | .mk binding guard body :: rest => h.clause binding guard body rest (exprs body) (clauses rest)
end

end ExprInduction

end StackBackend
