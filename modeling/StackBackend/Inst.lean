import StackBackend.Ty
import StackBackend.Number.Notation

/-! Instructions of the stack machine. A block ends in its only terminator. -/

namespace StackBackend

inductive IntWidth where
  | i8
  | i16
  | i32
  | i64
deriving DecidableEq, Repr

def IntWidth.bits : IntWidth → Nat
  | .i8 => 8
  | .i16 => 16
  | .i32 => 32
  | .i64 => 64

inductive FloatWidth where
  | f32
  | f64
deriving DecidableEq, Repr

def FloatWidth.bits : FloatWidth → Nat
  | .f32 => 32
  | .f64 => 64

inductive IntOp where
  | add
  | sub
  | mul
  | div
  | mod
  | lsl
  | lsr
  | asr
  | and
  | or
  | xor
  | eq
  | ne
  | lt
  | le
  | gt
  | ge
  | neg
  | inv
deriving DecidableEq, Repr

namespace IntOp

def mnemonic : IntOp → String
  | .add => "add"
  | .sub => "sub"
  | .mul => "mul"
  | .div => "div"
  | .mod => "mod"
  | .lsl => "lsl"
  | .lsr => "lsr"
  | .asr => "asr"
  | .and => "and"
  | .or => "or"
  | .xor => "xor"
  | .eq => "eq"
  | .ne => "ne"
  | .lt => "lt"
  | .le => "le"
  | .gt => "gt"
  | .ge => "ge"
  | .neg => "neg"
  | .inv => "inv"

def isUnary : IntOp → Bool
  | .neg | .inv => true
  | _ => false

def all : List IntOp :=
  [.add, .sub, .mul, .div, .mod, .lsl, .lsr, .asr, .and, .or, .xor, .eq, .ne, .lt, .le, .gt,
    .ge, .neg, .inv]

end IntOp

inductive FloatOp where
  | add
  | sub
  | mul
  | div
  | eq
  | ne
  | lt
  | le
  | gt
  | ge
  | neg
deriving DecidableEq, Repr

namespace FloatOp

def mnemonic : FloatOp → String
  | .add => "add"
  | .sub => "sub"
  | .mul => "mul"
  | .div => "div"
  | .eq => "eq"
  | .ne => "ne"
  | .lt => "lt"
  | .le => "le"
  | .gt => "gt"
  | .ge => "ge"
  | .neg => "neg"

def all : List FloatOp := [.add, .sub, .mul, .div, .eq, .ne, .lt, .le, .gt, .ge, .neg]

end FloatOp

inductive Conversion where
  /-- Keep the low bits of an integer. -/
  | truncate (target : IntWidth)
  | signExtend (target source : IntWidth)
  | narrowFloat
  | widenFloat
  /-- To the integer of the same width. -/
  | floatToInt (width : FloatWidth)
  /-- From the integer of the same width. -/
  | intToFloat (width : FloatWidth)
deriving DecidableEq, Repr

def Conversion.text : Conversion → String
  | .truncate w => "trunci" ++ toString w.bits
  | .signExtend target source => "sexti" ++ toString target.bits ++ "_" ++ toString source.bits
  | .narrowFloat => "truncf32"
  | .widenFloat => "extf64"
  | .floatToInt w => "fcvti" ++ toString w.bits
  | .intToFloat w => "icvtf" ++ toString w.bits

inductive Inst where
  | nop
  | ret
  | branch (target : BlockId)
  /-- Pops a boolean and goes on at the first target if it is true. -/
  | branchIf (onTrue onFalse : BlockId)
  | pushTry (body handler : BlockId)
  | popTry (target : BlockId)
  | throw
  | drop
  | dup
  | dupAt (depth : Nat)
  | swap
  /-- Swaps the top value with the one two below it. -/
  | swap2
  | unit
  | true
  | false
  | null
  | uninitialized
  | i8 (value : Int8)
  | i16 (value : Int16)
  | i32 (value : Int32)
  | i64 (value : Int64)
  | f32 (value : Binary32)
  | f64 (value : Binary64)
  /-- A string of the program's pool. -/
  | string (index : Nat)
  | loadLocal (slot : Int)
  | storeLocal (slot : Int)
  | loadGlobal (index : Nat)
  | storeGlobal (index : Nat)
  | load8 (field : Nat)
  | load16 (field : Nat)
  | load32 (field : Nat)
  | load64 (field : Nat)
  | loadPointer (field : Nat)
  /-- Faults when the pointer is null or not yet assigned. -/
  | loadPointerChecked (field : Nat)
  | store8 (field : Nat)
  | store16 (field : Nat)
  | store32 (field : Nat)
  | store64 (field : Nat)
  | storePointer (field : Nat)
  | allocate (cls : ClassId)
  | allocateArray (cls : ClassId) (length : Nat)
  | classRef (cls : ClassId)
  /-- A class type, whose arguments have been pushed. -/
  | classType (cls : ClassId)
  /-- What the caller supplies for a type parameter. -/
  | typeVar (param : TypeParamId)
  | cast
  | call (function : FunctionId)
  /-- A call through the method table; the receiver counts as an argument. -/
  | callVirtual (argc slot : Nat)
  | sameObject
  | notSameObject
  | int (op : IntOp) (width : IntWidth)
  | float (op : FloatOp) (width : FloatWidth)
  | notBool
  | convert (conversion : Conversion)
deriving DecidableEq

namespace Inst

def isTerminator : Inst → Bool
  | .ret | .branch _ | .branchIf .. | .pushTry .. | .popTry _ | .throw => Bool.true
  | _ => Bool.false

/-- Blocks the instruction may go on at. -/
def successors : Inst → List BlockId
  | .branch b | .popTry b => [b]
  | .branchIf a b | .pushTry a b => [a, b]
  | _ => []

def mapTargets (f : BlockId → BlockId) : Inst → Inst
  | .branch b => .branch (f b)
  | .popTry b => .popTry (f b)
  | .branchIf a b => .branchIf (f a) (f b)
  | .pushTry a b => .pushTry (f a) (f b)
  | inst => inst

theorem successors_mapTargets (f : BlockId → BlockId) (i : Inst) :
    (i.mapTargets f).successors = i.successors.map f := by
  cases i <;> rfl

@[simp] theorem isTerminator_mapTargets (f : BlockId → BlockId) (i : Inst) :
    (i.mapTargets f).isTerminator = i.isTerminator := by
  cases i <;> rfl

def line (mnemonic : String) (operands : List String) : String :=
  if operands.isEmpty then mnemonic else mnemonic ++ " " ++ ", ".intercalate operands

def indexed {table : Table} (mnemonic : String) (targets : List (Ref table)) : String :=
  line mnemonic (targets.map fun r => toString r.index)

def text : Inst → String
  | .nop => "nop"
  | .ret => "ret"
  | .branch b => indexed "branch" [b]
  | .branchIf a b => indexed "branchif" [a, b]
  | .pushTry a b => indexed "pushtry" [a, b]
  | .popTry b => indexed "poptry" [b]
  | .throw => "throw"
  | .drop => "drop"
  | .dup => "dup"
  | .dupAt n => line "dupi" [toString n]
  | .swap => "swap"
  | .swap2 => "swap2"
  | .unit => "unit"
  | .true => "true"
  | .false => "false"
  | .null => "null"
  | .uninitialized => "uninitialized"
  | .i8 v => line "i8" [toString v.toInt]
  | .i16 v => line "i16" [toString v.toInt]
  | .i32 v => line "i32" [toString v.toInt]
  | .i64 v => line "i64" [toString v.toInt]
  | .f32 v => line "f32" [v.render .listed]
  | .f64 v => line "f64" [v.render .listed]
  | .string i => line "string" [toString i]
  | .loadLocal s => line "ldlocal" [toString s]
  | .storeLocal s => line "stlocal" [toString s]
  | .loadGlobal i => line "ldg" [toString i]
  | .storeGlobal i => line "stg" [toString i]
  | .load8 i => line "ld8" [toString i]
  | .load16 i => line "ld16" [toString i]
  | .load32 i => line "ld32" [toString i]
  | .load64 i => line "ld64" [toString i]
  | .loadPointer i => line "ldp" [toString i]
  | .loadPointerChecked i => line "ldpc" [toString i]
  | .store8 i => line "st8" [toString i]
  | .store16 i => line "st16" [toString i]
  | .store32 i => line "st32" [toString i]
  | .store64 i => line "st64" [toString i]
  | .storePointer i => line "stp" [toString i]
  | .allocate c => indexed "allocobj" [c]
  | .allocateArray c n => line "allocarri" [toString c.index, toString n]
  | .classRef c => indexed "cls" [c]
  | .classType c => indexed "tyc" [c]
  | .typeVar t => indexed "tyv" [t]
  | .cast => "cast"
  | .call f => indexed "callg" [f]
  | .callVirtual argc slot => line "callv" [toString argc, toString slot]
  | .sameObject => "eqp"
  | .notSameObject => "nep"
  | .int op w => op.mnemonic ++ "i" ++ toString w.bits
  | .float op w => op.mnemonic ++ "f" ++ toString w.bits
  | .notBool => "notb"
  | .convert c => c.text

end Inst

/-- A straight run of instructions; `id` is its position in the body. -/
structure Block where
  id : BlockId
  instructions : List Inst
deriving DecidableEq

namespace Block

/-- The last instruction, if it ends the block. -/
def terminator? (b : Block) : Option Inst := b.instructions.getLast?.filter Inst.isTerminator

def successors (b : Block) : List BlockId := (b.terminator?.map Inst.successors).getD []

end Block

/-- Where a parameter or local lives: parameters count up from 0, locals down
from -1. -/
structure LocalSlot where
  defn : DefnId
  name : String
  ty : Ty
  slot : Int
deriving DecidableEq

structure Body where
  params : List LocalSlot
  locals : List LocalSlot
  blocks : List Block
deriving DecidableEq

namespace Body

def slotOf? (b : Body) (defn : DefnId) : Option Int :=
  ((b.params ++ b.locals).find? (·.defn = defn)).map LocalSlot.slot

end Body

end StackBackend
