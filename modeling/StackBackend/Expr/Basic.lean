import StackBackend.Ty
import StackBackend.Number.Binary

/-! The typed expression tree. Every node carries its type and every use of a
name carries the definition it stands for. -/

namespace StackBackend

inductive Literal where
  | unit
  | boolean (value : Bool)
  | i8 (value : Int8)
  | i16 (value : Int16)
  | i32 (value : Int32)
  | i64 (value : Int64)
  | f32 (value : Binary32)
  | f64 (value : Binary64)
  | string (value : String)
  | null
deriving DecidableEq

/-- Operators on two values. Equality of objects is identity. -/
inductive BinaryOp where
  | add
  | sub
  | mul
  | div
  | rem
  | shl
  | lshr
  | ashr
  | bitAnd
  | bitOr
  | bitXor
  | eq
  | ne
  | lt
  | le
  | gt
  | ge
deriving DecidableEq, Repr

namespace BinaryOp

def isComparison : BinaryOp → Bool
  | .eq | .ne | .lt | .le | .gt | .ge => true
  | _ => false

def name : BinaryOp → String
  | .add => "Add"
  | .sub => "Sub"
  | .mul => "Mul"
  | .div => "Div"
  | .rem => "Rem"
  | .shl => "Shl"
  | .lshr => "LShr"
  | .ashr => "AShr"
  | .bitAnd => "BitAnd"
  | .bitOr => "BitOr"
  | .bitXor => "BitXor"
  | .eq => "Eq"
  | .ne => "Ne"
  | .lt => "Lt"
  | .le => "Le"
  | .gt => "Gt"
  | .ge => "Ge"

def all : List BinaryOp :=
  [.add, .sub, .mul, .div, .rem, .shl, .lshr, .ashr, .bitAnd, .bitOr, .bitXor,
    .eq, .ne, .lt, .le, .gt, .ge]

end BinaryOp

inductive UnaryOp where
  | neg
  | bitNot
  | not
deriving DecidableEq, Repr

namespace UnaryOp

def name : UnaryOp → String
  | .neg => "Neg"
  | .bitNot => "BitNot"
  | .not => "Not"

def all : List UnaryOp := [.neg, .bitNot, .not]

end UnaryOp

mutual

inductive Expr where
  | literal (ty : Ty) (value : Literal)
  /-- The "not yet assigned" mark that initializers store into pointer fields. -/
  | uninitialized (ty : Ty)
  /-- The receiver of the enclosing method. -/
  | self (ty : Ty)
  /-- A parameter, local or global. A field here is one of the implicit receiver. -/
  | variable (ty : Ty) (defn : DefnId)
  | field (ty : Ty) (receiver : Expr) (defn : DefnId)
  /-- The target is a variable or a field. -/
  | assign (ty : Ty) (target value : Expr)
  /-- `target op= value`. -/
  | compound (ty : Ty) (op : BinaryOp) (target value : Expr)
  /-- A field store that evaluates the value before the receiver. -/
  | initField (ty : Ty) (receiver : Expr) (defn : DefnId) (value : Expr)
  | binary (ty : Ty) (op : BinaryOp) (left right : Expr)
  | unary (ty : Ty) (op : UnaryOp) (operand : Expr)
  | convert (ty : Ty) (operand : Expr)
  | and (ty : Ty) (left right : Expr)
  | or (ty : Ty) (left right : Expr)
  | block (ty : Ty) (stmts : List Stmt)
  | cond (ty : Ty) (test onTrue : Expr) (onFalse : Option Expr)
  | loop (ty : Ty) (test body : Expr)
  | call (ty : Ty) (function : FunctionId) (typeArgs : List Ty) (args : List Expr)
  | invoke (ty : Ty) (receiver : Expr) (method : FunctionId) (typeArgs : List Ty)
      (args : List Expr)
  /-- A method of the enclosing class, called on the implicit receiver. -/
  | invokeSelf (ty : Ty) (method : FunctionId) (typeArgs : List Ty) (args : List Expr)
  /-- Allocation and constructor call; the type arguments are those of the node. -/
  | new (ty : Ty) (cls : ClassId) (constructor : FunctionId) (args : List Expr)
  | functionValue (ty : Ty) (function : FunctionId)
  | throw (ty : Ty) (operand : Expr)
  | ret (ty : Ty) (value : Option Expr)
  | attempt (ty : Ty) (body : Expr) (clauses : List Clause) (cleanup : Option Expr)

inductive Stmt where
  | expr (e : Expr)
  | declare (defn : DefnId) (init : Option Expr)
  | function (f : FunctionId)

/-- A handler. Without a guard it takes every exception. -/
inductive Clause where
  | mk (binding : Option DefnId) (guard : Option ClassId) (body : Expr)

end

namespace Clause

def binding : Clause → Option DefnId
  | .mk binding _ _ => binding

def guard : Clause → Option ClassId
  | .mk _ guard _ => guard

def body : Clause → Expr
  | .mk _ _ body => body

end Clause

namespace Expr

def ty : Expr → Ty
  | .literal ty _ | .uninitialized ty | .self ty | .variable ty _ | .field ty _ _
  | .assign ty _ _ | .compound ty _ _ _ | .initField ty _ _ _ | .binary ty _ _ _
  | .unary ty _ _ | .convert ty _ | .and ty _ _ | .or ty _ _ | .block ty _ | .cond ty _ _ _
  | .loop ty _ _ | .call ty _ _ _ | .invoke ty _ _ _ _ | .invokeSelf ty _ _ _ | .new ty _ _ _
  | .functionValue ty _ | .throw ty _ | .ret ty _ | .attempt ty _ _ _ => ty

/-- The same node with another type. -/
def withTy (ty : Ty) : Expr → Expr
  | .literal _ value => .literal ty value
  | .uninitialized _ => .uninitialized ty
  | .self _ => .self ty
  | .variable _ defn => .variable ty defn
  | .field _ receiver defn => .field ty receiver defn
  | .assign _ target value => .assign ty target value
  | .compound _ op target value => .compound ty op target value
  | .initField _ receiver defn value => .initField ty receiver defn value
  | .binary _ op left right => .binary ty op left right
  | .unary _ op operand => .unary ty op operand
  | .convert _ operand => .convert ty operand
  | .and _ left right => .and ty left right
  | .or _ left right => .or ty left right
  | .block _ stmts => .block ty stmts
  | .cond _ test onTrue onFalse => .cond ty test onTrue onFalse
  | .loop _ test body => .loop ty test body
  | .call _ function typeArgs args => .call ty function typeArgs args
  | .invoke _ receiver method typeArgs args => .invoke ty receiver method typeArgs args
  | .invokeSelf _ method typeArgs args => .invokeSelf ty method typeArgs args
  | .new _ cls constructor args => .new ty cls constructor args
  | .functionValue _ function => .functionValue ty function
  | .throw _ operand => .throw ty operand
  | .ret _ value => .ret ty value
  | .attempt _ body clauses cleanup => .attempt ty body clauses cleanup

@[simp] theorem ty_withTy (ty : Ty) (e : Expr) : (e.withTy ty).ty = ty := by
  cases e <;> rfl

end Expr

end StackBackend
