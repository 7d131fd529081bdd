import StackBackend.Expr.Basic

/-! Expression constructors that compute the type of the node from its parts. -/

namespace StackBackend

def objectClass : ClassId := ⟨0⟩

def stringClass : ClassId := ⟨1⟩

/-- The class of runtime types. -/
def typeClass : ClassId := ⟨2⟩

def exceptionClass : ClassId := ⟨3⟩

def Literal.ty : Literal → Ty
  | .unit => .unit
  | .boolean _ => .boolean
  | .i8 _ => .i8
  | .i16 _ => .i16
  | .i32 _ => .i32
  | .i64 _ => .i64
  | .f32 _ => .f32
  | .f64 _ => .f64
  | .string _ => .ofClass stringClass
  | .null => .null

/-- Whether control never passes the statement, going by types alone. -/
def Stmt.diverges : Stmt → Bool
  | .expr e => e.ty.isNothing
  | .declare _ (some e) => e.ty.isNothing
  | .declare _ none => false
  | .function _ => false

namespace Expr

def ofLiteral (value : Literal) : Expr := .literal value.ty value

def unitValue : Expr := ofLiteral .unit

def mkAssign (target value : Expr) : Expr := .assign target.ty target value

def mkCompound (op : BinaryOp) (target value : Expr) : Expr :=
  .compound target.ty op target value

def mkInitField (receiver : Expr) (defn : DefnId) (value : Expr) : Expr :=
  .initField .unit receiver defn value

/-- Comparisons are boolean; every other operator keeps the type on its left. -/
def mkBinary (op : BinaryOp) (left right : Expr) : Expr :=
  .binary (if op.isComparison then .boolean else left.ty) op left right

def mkUnary (op : UnaryOp) (operand : Expr) : Expr := .unary operand.ty op operand

def mkAnd (left right : Expr) : Expr := .and .boolean left right

def mkOr (left right : Expr) : Expr := .or .boolean left right

/-- A block has the type of its trailing expression, or unit; one with a statement
that never completes has none. -/
def blockTy (stmts : List Stmt) : Ty :=
  if stmts.any Stmt.diverges then .nothing
  else match stmts.getLast? with
    | some (.expr e) => e.ty
    | _ => .unit

def mkBlock (stmts : List Stmt) : Expr := .block (blockTy stmts) stmts

/-- Without an alternative the value is unit. -/
def mkWhen (test onTrue : Expr) : Expr := .cond .unit test onTrue none

/-- The type of the first arm that completes. -/
def mkCond (test onTrue onFalse : Expr) : Expr :=
  .cond (if onTrue.ty.isNothing then onFalse.ty else onTrue.ty) test onTrue (some onFalse)

def mkLoop (test body : Expr) : Expr := .loop .unit test body

/-- A type that names no class allocates a plain object. -/
def mkNew (ty : Ty) (constructor : FunctionId) (args : List Expr) : Expr :=
  .new ty (ty.class?.getD objectClass) constructor args

def mkFunctionValue (f : FunctionId) : Expr := .functionValue (.ofClass objectClass) f

def mkThrow (operand : Expr) : Expr := .throw .nothing operand

def mkRet (value : Option Expr) : Expr := .ret .nothing value

/-- The type of the body or of the first clause that completes. -/
def mkAttempt (body : Expr) (clauses : List Clause) (cleanup : Option Expr) : Expr :=
  let tys := body.ty :: clauses.map (·.body.ty)
  .attempt ((tys.find? (!·.isNothing)).getD .nothing) body clauses cleanup

end Expr

end StackBackend
