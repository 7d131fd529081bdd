import Mathlib.Logic.Function.Basic
import StackBackend.Lowering.Operators
import StackBackend.Program.Hierarchy

/-! Values, objects and the operations on them that expressions and the stack machine
share. What a cast lets pass and what an operator computes is left to a host. -/

namespace StackBackend

inductive Value where
  | unit
  | boolean (b : Bool)
  | i8 (n : Int8)
  | i16 (n : Int16)
  | i32 (n : Int32)
  | i64 (n : Int64)
  | f32 (x : Binary32)
  | f64 (x : Binary64)
  /-- Strings with the same text are one object. -/
  | string (text : String)
  | null
  /-- What a field holds that has not been assigned yet. -/
  | uninitialized
  | object (address : Nat)
  | cls (c : ClassId)
  | type (ty : Ty)
  /-- An object that stands for a class, as handlers make them. -/
  | typeObject (number : Nat)
deriving DecidableEq, Inhabited

instance : Inhabited Ty := ⟨.unit⟩

namespace Value

def ofLiteral : Literal → Value
  | .unit => .unit
  | .boolean b => .boolean b
  | .i8 n => .i8 n
  | .i16 n => .i16 n
  | .i32 n => .i32 n
  | .i64 n => .i64 n
  | .f32 x => .f32 x
  | .f64 x => .f64 x
  | .string text => .string text
  | .null => .null

/-- Whether the value is what variables of class types hold. -/
def isReference : Value → Bool
  | .string _ | .null | .uninitialized | .object _ => true
  | _ => false

def isAssigned : Value → Bool
  | .null | .uninitialized => false
  | _ => true

def isObject : Value → Bool
  | .object _ => true
  | _ => false

/-- The registers of a value: booleans and unit are bytes. -/
def numeric? : Value → Option Numeric
  | .unit | .boolean _ | .i8 _ => some (.int .i8)
  | .i16 _ => some (.int .i16)
  | .i32 _ => some (.int .i32)
  | .i64 _ => some (.int .i64)
  | .f32 _ => some (.float .f32)
  | .f64 _ => some (.float .f64)
  | _ => none

/-- Whether the value belongs to a type that is not a class. -/
def hasTy : Value → Ty → Bool
  | .unit, .unit | .boolean _, .boolean | .i8 _, .i8 | .i16 _, .i16 | .i32 _, .i32
  | .i64 _, .i64 | .f32 _, .f32 | .f64 _, .f64 => true
  | _, _ => false

end Value

/-- Whether a value fits into a field. -/
def Storage.holds : Storage → Value → Bool
  | .bits8, v => v.numeric? = some (.int .i8)
  | .bits16, v => v.numeric? = some (.int .i16)
  | .bits32, v => v.numeric? = some (.int .i32) || v.numeric? = some (.float .f32)
  | .bits64, v => v.numeric? = some (.int .i64) || v.numeric? = some (.float .f64)
  | .pointer, v | .erasedPointer, v => v.isReference

/-- Whether a field may be read while it holds the value: one that is not nullable
must have been assigned. -/
def Storage.yields (s : Storage) (nullable : Bool) (v : Value) : Bool :=
  s.holds v && (s ≠ .pointer || nullable || v.isAssigned)

structure Obj where
  cls : ClassId
  fields : List Value

inductive Event where
  | global (index : Nat) (v : Value)
  | field (address index : Nat) (v : Value)

structure World where
  globals : Nat → Value
  heap : Nat → Option Obj
  /-- Every store so far, the last one first. -/
  trace : List Event

namespace World

def setGlobal (w : World) (index : Nat) (v : Value) : World :=
  { w with globals := Function.update w.globals index v, trace := .global index v :: w.trace }

def field? (w : World) (address index : Nat) : Option Value :=
  (w.heap address).bind (·.fields[index]?)

def setField? (w : World) (address index : Nat) (v : Value) : Option World :=
  match w.heap address with
  | none => none
  | some o =>
    if index < o.fields.length then
      some { w with
        heap := Function.update w.heap address (some { o with fields := o.fields.set index v })
        trace := .field address index v :: w.trace }
    else none

end World

/-- What the language leaves to the machine it runs on. -/
structure Host where
  binary : BinaryOp → Value → Value → Option Value
  unary : UnaryOp → Value → Option Value
  /-- Whether a cast to a type lets the value pass. -/
  admits : World → Value → Ty → Bool

namespace Host

/-- An operator on operands of the given type. Objects are compared by identity. -/
def applyBinary (host : Host) (op : BinaryOp) (ty : Ty) (a b : Value) : Option Value :=
  if ty.isObject then
    if a.isReference && b.isReference then
      match op with
      | .eq => some (.boolean (a = b))
      | .ne => some (.boolean (a ≠ b))
      | _ => none
    else none
  else if a.hasTy ty && b.hasTy ty then host.binary op a b
  else none

/-- Bitwise and logical negation of a boolean are the same. -/
def applyUnary (host : Host) (op : UnaryOp) (ty : Ty) (a : Value) : Option Value :=
  if a.hasTy ty then
    match op, ty with
    | .bitNot, .boolean => host.unary .not a
    | op, _ => host.unary op a
  else none

end Host

/-- What expressions and code are run in. -/
structure Runtime where
  program : Program
  host : Host
  /-- What the caller supplied for type parameters. -/
  typeArg : TypeParamId → Ty

namespace Runtime

def arity? (R : Runtime) (c : ClassId) : Option Nat :=
  R.program.classes[c.index]?.map (·.typeParams.length)

mutual
/-- The type a type stands for at run time. -/
def typeAt? (R : Runtime) : Ty → Option Ty
  | .object c args _ => do
    let args ← typesAt? R args
    if R.arity? c = some args.length then some (.object c args false) else none
  | .variable t => some (R.typeArg t)
  | _ => none
def typesAt? (R : Runtime) : List Ty → Option (List Ty)
  | [] => some []
  | ty :: rest => do
    let first ← typeAt? R ty
    let others ← typesAt? R rest
    some (first :: others)
end

def isBelow? (R : Runtime) (sub sup : ClassId) : Option Bool :=
  (R.program.isSubclass sub sup).toOption

def layout? (R : Runtime) (c : ClassId) : Option ClassLayout :=
  R.program.classes[c.index]?.bind ClassDecl.layout

def fieldSlot? (R : Runtime) (c : ClassId) (d : DefnId) : Option (Nat × Storage) := do
  let layout ← R.layout? c
  let index ← layout.fieldIndex? d
  let slot ← layout.field? d
  some (index, slot.storage)

end Runtime

end StackBackend
