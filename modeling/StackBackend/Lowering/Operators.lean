import StackBackend.Inst
import StackBackend.Expr.Basic

/-! Which instructions an operator, a conversion or a field access becomes. -/

namespace StackBackend

inductive Numeric where
  | int (width : IntWidth)
  | float (width : FloatWidth)
deriving DecidableEq, Repr

def Ty.numeric? : Ty → Option Numeric
  | .i8 => some (.int .i8)
  | .i16 => some (.int .i16)
  | .i32 => some (.int .i32)
  | .i64 => some (.int .i64)
  | .f32 => some (.float .f32)
  | .f64 => some (.float .f64)
  | _ => none

namespace BinaryOp

def intOp : BinaryOp → IntOp
  | .add => .add
  | .sub => .sub
  | .mul => .mul
  | .div => .div
  | .rem => .mod
  | .shl => .lsl
  | .lshr => .lsr
  | .ashr => .asr
  | .bitAnd => .and
  | .bitOr => .or
  | .bitXor => .xor
  | .eq => .eq
  | .ne => .ne
  | .lt => .lt
  | .le => .le
  | .gt => .gt
  | .ge => .ge

def floatOp? : BinaryOp → Option FloatOp
  | .add => some .add
  | .sub => some .sub
  | .mul => some .mul
  | .div => some .div
  | .eq => some .eq
  | .ne => some .ne
  | .lt => some .lt
  | .le => some .le
  | .gt => some .gt
  | .ge => some .ge
  | _ => none

/-- Booleans and unit are compared as bytes, objects by identity. -/
def otherInst? (op : BinaryOp) (ty : Ty) : Option Inst :=
  match ty, op with
  | .boolean, .eq | .unit, .eq => some (.int .eq .i8)
  | .boolean, .ne | .unit, .ne => some (.int .ne .i8)
  | .boolean, .bitAnd => some (.int .and .i8)
  | .boolean, .bitOr => some (.int .or .i8)
  | .boolean, .bitXor => some (.int .xor .i8)
  | ty, .eq => if ty.isObject then some .sameObject else none
  | ty, .ne => if ty.isObject then some .notSameObject else none
  | _, _ => none

/-- The instruction for an operator on operands of the given type. -/
def inst? (op : BinaryOp) (ty : Ty) : Option Inst :=
  match ty.numeric? with
  | some (.int width) => some (.int op.intOp width)
  | some (.float width) => op.floatOp?.map (.float · width)
  | none => op.otherInst? ty

end BinaryOp

def UnaryOp.inst? (op : UnaryOp) (ty : Ty) : Option Inst :=
  match op, ty.numeric? with
  | .neg, some (.int width) => some (.int .neg width)
  | .neg, some (.float width) => some (.float .neg width)
  | .bitNot, some (.int width) => some (.int .inv width)
  | .bitNot, none | .not, none => if ty = .boolean then some .notBool else none
  | _, _ => none

/-- The integer width with as many bits. -/
def FloatWidth.int : FloatWidth → IntWidth
  | .f32 => .i32
  | .f64 => .i64

def resizeInt (source target : IntWidth) : List Inst :=
  if source.bits < target.bits then [.convert (.signExtend target source)]
  else if target.bits < source.bits then [.convert (.truncate target)]
  else []

/-- A numeric conversion. Between integers and floats it goes through the integer
of the float's width; a value that is never produced needs none. -/
def conversion? (source target : Ty) : Option (List Inst) :=
  if source = target ∨ source.isNothing then some []
  else match source.numeric?, target.numeric? with
    | some (.int a), some (.int b) => some (resizeInt a b)
    | some (.float a), some (.int b) => some (.convert (.floatToInt a) :: resizeInt a.int b)
    | some (.int a), some (.float b) => some (resizeInt a b.int ++ [.convert (.intToFloat b)])
    | some (.float .f32), some (.float .f64) => some [.convert .widenFloat]
    | some (.float .f64), some (.float .f32) => some [.convert .narrowFloat]
    | _, _ => none

/-- A pointer that may not be null is checked when it is loaded. -/
def Storage.load (s : Storage) (nullable : Bool) (index : Nat) : Inst :=
  match s with
  | .bits8 => .load8 index
  | .bits16 => .load16 index
  | .bits32 => .load32 index
  | .bits64 => .load64 index
  | .pointer => if nullable then .loadPointer index else .loadPointerChecked index
  | .erasedPointer => .loadPointer index

def Storage.store (s : Storage) (index : Nat) : Inst :=
  match s with
  | .bits8 => .store8 index
  | .bits16 => .store16 index
  | .bits32 => .store32 index
  | .bits64 => .store64 index
  | .pointer | .erasedPointer => .storePointer index

end StackBackend
