import StackBackend.Stored.Expr
import StackBackend.Inst

/-! Stored form of instructions and lowered bodies. -/

namespace StackBackend

namespace IntWidth

def name : IntWidth → String
  | .i8 => "I8"
  | .i16 => "I16"
  | .i32 => "I32"
  | .i64 => "I64"

def toJson (w : IntWidth) : Json := .string w.name

def ofJson? (j : Json) : Option IntWidth := j.named? name [.i8, .i16, .i32, .i64]

end IntWidth

namespace FloatWidth

def name : FloatWidth → String
  | .f32 => "F32"
  | .f64 => "F64"

def toJson (w : FloatWidth) : Json := .string w.name

def ofJson? (j : Json) : Option FloatWidth := j.named? name [.f32, .f64]

end FloatWidth

/-- Operators are stored under their mnemonic, with a capital. -/
def IntOp.name (op : IntOp) : String := op.mnemonic.capitalize

def IntOp.toJson (op : IntOp) : Json := .string op.name

def IntOp.ofJson? (j : Json) : Option IntOp := j.named? IntOp.name IntOp.all

def FloatOp.name (op : FloatOp) : String := op.mnemonic.capitalize

def FloatOp.toJson (op : FloatOp) : Json := .string op.name

def FloatOp.ofJson? (j : Json) : Option FloatOp := j.named? FloatOp.name FloatOp.all

namespace Conversion

def toJson : Conversion → Json
  | .truncate w => .tagged "Trunc" w.toJson
  | .signExtend target source =>
    .tagged "Sext" (.object [("to", target.toJson), ("from", source.toJson)])
  | .narrowFloat => .string "TruncF32"
  | .widenFloat => .string "ExtF64"
  | .floatToInt w => .tagged "FloatToInt" w.toJson
  | .intToFloat w => .tagged "IntToFloat" w.toJson

def ofJson? (j : Json) : Option Conversion :=
  match j.variant? with
  | some ("Trunc", some w) => (IntWidth.ofJson? w).map .truncate
  | some ("Sext", some payload) => do
    let [target, source] ← payload.fields? ["to", "from"] | none
    pure (.signExtend (← Json.need IntWidth.ofJson? target) (← Json.need IntWidth.ofJson? source))
  | some ("FloatToInt", some w) => (FloatWidth.ofJson? w).map .floatToInt
  | some ("IntToFloat", some w) => (FloatWidth.ofJson? w).map .intToFloat
  | _ => match j.plainVariant? with
    | some "TruncF32" => some .narrowFloat
    | some "ExtF64" => some .widenFloat
    | _ => none

end Conversion

namespace Inst

def twoRefs {table : Table} (a b : Ref table) : Json := .array [a.toJson, b.toJson]

def toJson : Inst → Json
  | .nop => .string "Nop"
  | .ret => .string "Ret"
  | .branch b => .tagged "Branch" b.toJson
  | .branchIf a b => .tagged "BranchIf" (twoRefs a b)
  | .pushTry a b => .tagged "PushTry" (twoRefs a b)
  | .popTry b => .tagged "PopTry" b.toJson
  | .throw => .string "Throw"
  | .drop => .string "Drop"
  | .dup => .string "Dup"
  | .dupAt n => .tagged "DupI" (.ofNat n)
  | .swap => .string "Swap"
  | .swap2 => .string "Swap2"
  | .unit => .string "Unit"
  | .true => .string "True"
  | .false => .string "False"
  | .null => .string "Null"
  | .uninitialized => .string "Uninitialized"
  | .i8 n => .tagged "I8" (.ofInt n.toInt)
  | .i16 n => .tagged "I16" (.ofInt n.toInt)
  | .i32 n => .tagged "I32" (.ofInt n.toInt)
  | .i64 n => .tagged "I64" (.ofInt n.toInt)
  | .f32 x => .tagged "F32" x.toJson
  | .f64 x => .tagged "F64" x.toJson
  | .string i => .tagged "String" (.ofNat i)
  | .loadLocal s => .tagged "LdLocal" (.ofInt s)
  | .storeLocal s => .tagged "StLocal" (.ofInt s)
  | .loadGlobal i => .tagged "LdG" (.ofNat i)
  | .storeGlobal i => .tagged "StG" (.ofNat i)
  | .load8 i => .tagged "Ld8" (.ofNat i)
  | .load16 i => .tagged "Ld16" (.ofNat i)
  | .load32 i => .tagged "Ld32" (.ofNat i)
  | .load64 i => .tagged "Ld64" (.ofNat i)
  | .loadPointer i => .tagged "Ldp" (.ofNat i)
  | .loadPointerChecked i => .tagged "Ldpc" (.ofNat i)
  | .store8 i => .tagged "St8" (.ofNat i)
  | .store16 i => .tagged "St16" (.ofNat i)
  | .store32 i => .tagged "St32" (.ofNat i)
  | .store64 i => .tagged "St64" (.ofNat i)
  | .storePointer i => .tagged "Stp" (.ofNat i)
  | .allocate c => .tagged "AllocObj" c.toJson
  | .allocateArray c n => .tagged "AllocArrI" (.array [c.toJson, .ofNat n])
  | .classRef c => .tagged "Cls" c.toJson
  | .classType c => .tagged "Tyc" c.toJson
  | .typeVar t => .tagged "Tyv" t.toJson
  | .cast => .string "Cast"
  | .call f => .tagged "CallG" f.toJson
  | .callVirtual argc slot =>
    .tagged "CallV" (.object [("argc", .ofNat argc), ("slot", .ofNat slot)])
  | .sameObject => .string "Eqp"
  | .notSameObject => .string "Nep"
  | .int op w => .tagged "Int" (.array [op.toJson, w.toJson])
  | .float op w => .tagged "Float" (.array [op.toJson, w.toJson])
  | .notBool => .string "NotB"
  | .convert c => .tagged "Convert" c.toJson

def plainOfName? : String → Option Inst
  | "Nop" => some .nop
  | "Ret" => some .ret
  | "Throw" => some .throw
  | "Drop" => some .drop
  | "Dup" => some .dup
  | "Swap" => some .swap
  | "Swap2" => some .swap2
  | "Unit" => some .unit
  | "True" => some .true
  | "False" => some .false
  | "Null" => some .null
  | "Uninitialized" => some .uninitialized
  | "Cast" => some .cast
  | "Eqp" => some .sameObject
  | "Nep" => some .notSameObject
  | "NotB" => some .notBool
  | _ => none

def withIndex? : String → Option (Nat → Inst)
  | "DupI" => some .dupAt
  | "String" => some .string
  | "LdG" => some .loadGlobal
  | "StG" => some .storeGlobal
  | "Ld8" => some .load8
  | "Ld16" => some .load16
  | "Ld32" => some .load32
  | "Ld64" => some .load64
  | "Ldp" => some .loadPointer
  | "Ldpc" => some .loadPointerChecked
  | "St8" => some .store8
  | "St16" => some .store16
  | "St32" => some .store32
  | "St64" => some .store64
  | "Stp" => some .storePointer
  | _ => none

def ofPayload? (name : String) (v : Json) : Option Inst :=
  match name with
  | "Branch" => (Ref.ofJson? v).map .branch
  | "BranchIf" => (v.pair? Ref.ofJson? Ref.ofJson?).map fun (a, b) => .branchIf a b
  | "PushTry" => (v.pair? Ref.ofJson? Ref.ofJson?).map fun (a, b) => .pushTry a b
  | "PopTry" => (Ref.ofJson? v).map .popTry
  | "I8" => (Literal.signed? 8 v).map fun n => .i8 (.ofInt n)
  | "I16" => (Literal.signed? 16 v).map fun n => .i16 (.ofInt n)
  | "I32" => (Literal.signed? 32 v).map fun n => .i32 (.ofInt n)
  | "I64" => (Literal.signed? 64 v).map fun n => .i64 (.ofInt n)
  | "F32" => (Binary32.ofJson? v).map .f32
  | "F64" => (Binary64.ofJson? v).map .f64
  | "LdLocal" => (Literal.signed? 32 v).map .loadLocal
  | "StLocal" => (Literal.signed? 32 v).map .storeLocal
  | "AllocObj" => (Ref.ofJson? v).map .allocate
  | "AllocArrI" => (v.pair? Ref.ofJson? Json.word?).map fun (c, n) => .allocateArray c n
  | "Cls" => (Ref.ofJson? v).map .classRef
  | "Tyc" => (Ref.ofJson? v).map .classType
  | "Tyv" => (Ref.ofJson? v).map .typeVar
  | "CallG" => (Ref.ofJson? v).map .call
  | "CallV" => do
    let [argc, slot] ← v.fields? ["argc", "slot"] | none
    pure (.callVirtual (← Json.need Json.word? argc) (← Json.need Json.word? slot))
  | "Int" => (v.pair? IntOp.ofJson? IntWidth.ofJson?).map fun (op, w) => .int op w
  | "Float" => (v.pair? FloatOp.ofJson? FloatWidth.ofJson?).map fun (op, w) => .float op w
  | "Convert" => (Conversion.ofJson? v).map .convert
  | name => do pure ((← withIndex? name) (← v.word?))

def ofJson? (j : Json) : Option Inst :=
  match j.plainVariant?.bind plainOfName? with
  | some inst => some inst
  | none => match j.variant? with
    | some (name, some payload) => ofPayload? name payload
    | _ => none

end Inst

namespace Block

def toJson (b : Block) : Json :=
  .object [("id", b.id.toJson), ("instructions", .ofList Inst.toJson b.instructions)]

def ofJson? (j : Json) : Option Block := do
  let [id, instructions] ← j.fields? ["id", "instructions"] | none
  let id ← Json.need Ref.ofJson? id
  pure ⟨id, ← Json.need (Json.list? Inst.ofJson?) instructions⟩

end Block

namespace LocalSlot

def toJson (s : LocalSlot) : Json :=
  .object [("defn", s.defn.toJson), ("name", .string s.name), ("ty", s.ty.toJson),
    ("slot", .ofInt s.slot)]

def ofJson? (j : Json) : Option LocalSlot := do
  let [defn, name, ty, slot] ← j.fields? ["defn", "name", "ty", "slot"] | none
  let defn ← Json.need Ref.ofJson? defn
  let name ← Json.need Json.string? name
  let ty ← Json.need Ty.ofJson? ty
  pure ⟨defn, name, ty, ← Json.need (Literal.signed? 32) slot⟩

end LocalSlot

namespace Body

def toJson (b : Body) : Json :=
  .object [("params", .ofList LocalSlot.toJson b.params),
    ("locals", .ofList LocalSlot.toJson b.locals), ("blocks", .ofList Block.toJson b.blocks)]

def ofJson? (j : Json) : Option Body := do
  let [params, locals, blocks] ← j.fields? ["params", "locals", "blocks"] | none
  let params ← Json.need (Json.list? LocalSlot.ofJson?) params
  let locals ← Json.need (Json.list? LocalSlot.ofJson?) locals
  pure ⟨params, locals, ← Json.need (Json.list? Block.ofJson?) blocks⟩

end Body

end StackBackend
