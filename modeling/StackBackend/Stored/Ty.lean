import StackBackend.Stored.Codec
import StackBackend.Ty

/-! Stored form of types. -/

namespace StackBackend

namespace Ty

mutual
def toJson : Ty → Json
  | .unit => .string "Unit"
  | .boolean => .string "Boolean"
  | .i8 => .string "I8"
  | .i16 => .string "I16"
  | .i32 => .string "I32"
  | .i64 => .string "I64"
  | .f32 => .string "F32"
  | .f64 => .string "F64"
  | .nothing => .string "Nothing"
  | .null => .string "Null"
  | .object c args nullable =>
    .tagged "Class" (.object [("class", c.toJson), ("args", .array (allToJson args)),
      ("nullable", .bool nullable)])
  | .variable v => .tagged "Variable" v.toJson
def allToJson : List Ty → List Json
  | [] => []
  | ty :: rest => toJson ty :: allToJson rest
end

def plainOfName? : String → Option Ty
  | "Unit" => some .unit
  | "Boolean" => some .boolean
  | "I8" => some .i8
  | "I16" => some .i16
  | "I32" => some .i32
  | "I64" => some .i64
  | "F32" => some .f32
  | "F64" => some .f64
  | "Nothing" => some .nothing
  | "Null" => some .null
  | _ => none

/-- Reads a type of at most the given nesting. -/
def readWithin : Nat → Json → Option Ty
  | 0, _ => none
  | depth + 1, j =>
    match j.variant? with
    | some ("Class", some payload) => do
      let [c, args, nullable] ← payload.fields? ["class", "args", "nullable"] | none
      let c ← Json.need Ref.ofJson? c
      let args ← Json.need (Json.list? (readWithin depth)) args
      let nullable ← Json.need Json.bool? nullable
      pure (.object c args nullable)
    | some ("Variable", some payload) => (Ref.ofJson? payload).map .variable
    | _ => j.plainVariant?.bind plainOfName?

def ofJson? (j : Json) : Option Ty := readWithin (j.depth + 1) j

end Ty

namespace ClassTy

def toJson (c : ClassTy) : Json :=
  .object [("class", c.cls.toJson), ("args", .ofList Ty.toJson c.args),
    ("nullable", .bool c.nullable)]

def ofJson? (j : Json) : Option ClassTy := do
  let [c, args, nullable] ← j.fields? ["class", "args", "nullable"] | none
  let c ← Json.need Ref.ofJson? c
  let args ← Json.need (Json.list? Ty.ofJson?) args
  let nullable ← Json.need Json.bool? nullable
  pure ⟨c, args, nullable⟩

end ClassTy

namespace Storage

def all : List Storage := [.bits8, .bits16, .bits32, .bits64, .pointer, .erasedPointer]

def toJson (s : Storage) : Json := .string s.text

def ofJson? (j : Json) : Option Storage := j.named? Storage.text all

end Storage

end StackBackend
