import Mathlib.Data.List.Basic
import StackBackend.Expr.Nodes

/-! A property of every node of an expression. It holds of an expression if it holds
of the node itself and of every node of its parts, form by form. -/

namespace StackBackend

open List (forall_mem_cons forall_mem_append)

variable {e : Expr} {rest : List Stmt} {d : DefnId} {f : FunctionId} {op : BinaryOp}
  {typeArgs : List Ty} {clauses : List Clause}

def Expr.All (P : Node → Prop) (e : Expr) : Prop := ∀ n ∈ e.nodes, P n

def AllArgs (P : Node → Prop) (args : List Expr) : Prop := ∀ n ∈ nodesOfArgs args, P n

def AllStmts (P : Node → Prop) (stmts : List Stmt) : Prop := ∀ n ∈ nodesOfStmts stmts, P n

def AllClauses (P : Node → Prop) (clauses : List Clause) : Prop :=
  ∀ n ∈ nodesOfClauses clauses, P n

theorem nodesOfStmts_append (xs ys : List Stmt) :
    nodesOfStmts (xs ++ ys) = nodesOfStmts xs ++ nodesOfStmts ys := by
  induction xs with
  | nil => rfl
  | cons x rest ih => simp [nodesOfStmts, ih]

section

variable {P Q : Node → Prop}

theorem Expr.All.mono (h : e.All P) (hPQ : ∀ n, P n → Q n) : e.All Q :=
  fun n hn => hPQ n (h n hn)

theorem Expr.All.node (h : e.All P) : P (.expr e) :=
  h _ (by unfold Expr.nodes; exact (.head _) ..)

@[simp] theorem allArgs_nil : AllArgs P [] := List.forall_mem_nil _

@[simp] theorem allArgs_cons {arg : Expr} {rest : List Expr} :
    AllArgs P (arg :: rest) ↔ arg.All P ∧ AllArgs P rest :=
  forall_mem_append

theorem allArgs_iff {args : List Expr} : AllArgs P args ↔ ∀ e ∈ args, e.All P := by
  induction args with
  | nil => simp
  | cons arg rest ih => rw [allArgs_cons, ih, forall_mem_cons]

@[simp] theorem allStmts_nil : AllStmts P [] := List.forall_mem_nil _

@[simp] theorem allStmts_expr :
    AllStmts P (.expr e :: rest) ↔ P (.stmt (.expr e)) ∧ e.All P ∧ AllStmts P rest :=
  forall_mem_cons.trans (and_congr_right' forall_mem_append)

@[simp] theorem allStmts_declare :
    AllStmts P (.declare d none :: rest) ↔ P (.stmt (.declare d none)) ∧ AllStmts P rest :=
  forall_mem_cons

@[simp] theorem allStmts_define {init : Expr} : AllStmts P (.declare d (some init) :: rest) ↔
      P (.stmt (.declare d (some init))) ∧ init.All P ∧ AllStmts P rest :=
  forall_mem_cons.trans (and_congr_right' forall_mem_append)

@[simp] theorem allStmts_function :
    AllStmts P (.function f :: rest) ↔ P (.stmt (.function f)) ∧ AllStmts P rest :=
  forall_mem_cons

@[simp] theorem allClauses_nil : AllClauses P [] := List.forall_mem_nil _

@[simp] theorem allClauses_cons {binding : Option DefnId} {guard : Option ClassId} {body : Expr}
    {rest : List Clause} :
    AllClauses P (.mk binding guard body :: rest) ↔
      P (.clause (.mk binding guard body)) ∧ body.All P ∧ AllClauses P rest :=
  forall_mem_cons.trans (and_congr_right' forall_mem_append)

end

namespace Expr

variable {P : Node → Prop} {ty : Ty} {receiver target value left right operand test onTrue onFalse body cleanup : Expr} {args : List Expr}

@[simp] theorem all_literal {v : Literal} : (literal ty v).All P ↔ P (.expr (.literal ty v)) :=
  List.forall_mem_singleton

@[simp] theorem all_self : (self ty).All P ↔ P (.expr (.self ty)) :=
  List.forall_mem_singleton

@[simp] theorem all_variable : (Expr.variable ty d).All P ↔ P (.expr (.variable ty d)) :=
  List.forall_mem_singleton

@[simp] theorem all_field :
    (field ty receiver d).All P ↔ P (.expr (.field ty receiver d)) ∧ receiver.All P :=
  forall_mem_cons

@[simp] theorem all_assign : (assign ty target value).All P ↔
      P (.expr (.assign ty target value)) ∧ target.All P ∧ value.All P :=
  forall_mem_cons.trans (and_congr_right' forall_mem_append)

@[simp] theorem all_compound : (compound ty op target value).All P ↔
      P (.expr (.compound ty op target value)) ∧ target.All P ∧ value.All P :=
  forall_mem_cons.trans (and_congr_right' forall_mem_append)

@[simp] theorem all_initField : (initField ty receiver d value).All P ↔
      P (.expr (.initField ty receiver d value)) ∧ value.All P ∧ receiver.All P :=
  forall_mem_cons.trans (and_congr_right' forall_mem_append)

@[simp] theorem all_binary : (binary ty op left right).All P ↔
      P (.expr (.binary ty op left right)) ∧ left.All P ∧ right.All P :=
  forall_mem_cons.trans (and_congr_right' forall_mem_append)

@[simp] theorem all_unary {op : UnaryOp} :
    (unary ty op operand).All P ↔ P (.expr (.unary ty op operand)) ∧ operand.All P :=
  forall_mem_cons

@[simp] theorem all_convert :
    (convert ty operand).All P ↔ P (.expr (.convert ty operand)) ∧ operand.All P :=
  forall_mem_cons

@[simp] theorem all_and : (Expr.and ty left right).All P ↔
      P (.expr (.and ty left right)) ∧ left.All P ∧ right.All P :=
  forall_mem_cons.trans (and_congr_right' forall_mem_append)

@[simp] theorem all_or :
    (Expr.or ty left right).All P ↔ P (.expr (.or ty left right)) ∧ left.All P ∧ right.All P :=
  forall_mem_cons.trans (and_congr_right' forall_mem_append)

@[simp] theorem all_block {stmts : List Stmt} :
    (block ty stmts).All P ↔ P (.expr (.block ty stmts)) ∧ AllStmts P stmts :=
  forall_mem_cons

@[simp] theorem all_when : (cond ty test onTrue none).All P ↔
      P (.expr (.cond ty test onTrue none)) ∧ test.All P ∧ onTrue.All P :=
  forall_mem_cons.trans (and_congr_right' forall_mem_append)

@[simp] theorem all_cond : (cond ty test onTrue (some onFalse)).All P ↔
      P (.expr (.cond ty test onTrue (some onFalse))) ∧ test.All P ∧ onTrue.All P ∧
        onFalse.All P :=
  forall_mem_cons.trans (and_congr_right' (forall_mem_append.trans
    ((and_congr_left' forall_mem_append).trans and_assoc)))

@[simp] theorem all_loop :
    (loop ty test body).All P ↔ P (.expr (.loop ty test body)) ∧ test.All P ∧ body.All P :=
  forall_mem_cons.trans (and_congr_right' forall_mem_append)

@[simp] theorem all_call :
    (call ty f typeArgs args).All P ↔ P (.expr (.call ty f typeArgs args)) ∧ AllArgs P args :=
  forall_mem_cons

@[simp] theorem all_invoke : (invoke ty receiver f typeArgs args).All P ↔
      P (.expr (.invoke ty receiver f typeArgs args)) ∧ receiver.All P ∧ AllArgs P args :=
  forall_mem_cons.trans (and_congr_right' forall_mem_append)

@[simp] theorem all_new {c : ClassId} :
    (new ty c f args).All P ↔ P (.expr (.new ty c f args)) ∧ AllArgs P args :=
  forall_mem_cons

@[simp] theorem all_throw :
    (throw ty operand).All P ↔ P (.expr (.throw ty operand)) ∧ operand.All P :=
  forall_mem_cons

@[simp] theorem all_ret :
    (ret ty (some value)).All P ↔ P (.expr (.ret ty (some value))) ∧ value.All P :=
  forall_mem_cons

@[simp] theorem all_attempt_none : (attempt ty body clauses none).All P ↔
      P (.expr (.attempt ty body clauses none)) ∧ body.All P ∧ AllClauses P clauses :=
  forall_mem_cons.trans (and_congr_right' forall_mem_append)

@[simp] theorem all_attempt : (attempt ty body clauses (some cleanup)).All P ↔
      P (.expr (.attempt ty body clauses (some cleanup))) ∧ body.All P ∧ AllClauses P clauses ∧
        cleanup.All P :=
  forall_mem_cons.trans (and_congr_right' (forall_mem_append.trans
    ((and_congr_left' forall_mem_append).trans and_assoc)))

end Expr

end StackBackend
