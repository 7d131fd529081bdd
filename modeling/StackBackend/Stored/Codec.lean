import StackBackend.Json.Numeral
import StackBackend.Number.Notation
import StackBackend.Ref

/-! Building blocks of the stored form. A record is an object with its fields in
order, read back in any order or as an array; an alternative is its name, or an
object whose one key is its name. -/

namespace StackBackend.Json

/-- The value under a name that may stand there once. -/
def member? (name : String) (members : List (String × Json)) : Option (Option Json) :=
  match members.filter (·.1 = name) with
  | [] => some none
  | [(_, value)] => some (some value)
  | _ => none

/-- The fields of a record, in the order of `names`. Other names are skipped. -/
def fields? (names : List String) : Json → Option (List (Option Json))
  | .object members => names.mapM (member? · members)
  | .array items => if items.length = names.length then some (items.map some) else none
  | _ => none

/-- A field that must be there. -/
def need {α : Type} (read : Json → Option α) (value : Option Json) : Option α :=
  value.bind read

/-- A field that may be missing or null. -/
def maybe {α : Type} (read : Json → Option α) : Option Json → Option (Option α)
  | none | some .null => some none
  | some value => (read value).map some

def list? {α : Type} (read : Json → Option α) : Json → Option (List α)
  | .array items => items.mapM read
  | _ => none

def pair? {α β : Type} (first : Json → Option α) (second : Json → Option β) :
    Json → Option (α × β)
  | .array [a, b] => do pure (← first a, ← second b)
  | _ => none

def bool? : Json → Option Bool
  | .bool b => some b
  | _ => none

def string? : Json → Option String
  | .string s => some s
  | _ => none

def numeral? : Json → Option Numeral
  | .number literal => Numeral.ofText? literal
  | _ => none

/-- An integer from `low` up to and without `high`. -/
def int? (low high : Int) (j : Json) : Option Int := do
  let n ← (← j.numeral?).int?
  if low ≤ n ∧ n < high then some n else none

def nat? (limit : Nat) (j : Json) : Option Nat := (j.int? 0 limit).map Int.toNat

/-- Positions and counts take 32 bits. -/
def word? (j : Json) : Option Nat := j.nat? (twoPow 32)

/-- The name of an alternative, and the data it carries. -/
def variant? : Json → Option (String × Option Json)
  | .string name => some (name, none)
  | .object [(name, value)] => some (name, some value)
  | _ => none

/-- The name of an alternative without data. -/
def plainVariant? (j : Json) : Option String :=
  match j.variant? with
  | some (name, none) | some (name, some .null) => some name
  | _ => none

/-- The one of `all` with the given name. -/
def named? {α : Type} (name : α → String) (all : List α) (j : Json) : Option α := do
  let wanted ← j.plainVariant?
  all.find? (name · = wanted)

end StackBackend.Json

namespace StackBackend

def Ref.toJson {table : Table} (r : Ref table) : Json := .ofNat r.index

def Ref.ofJson? {table : Table} (j : Json) : Option (Ref table) := j.word?.map Ref.mk

/-- Infinity has no stored form. -/
def Binary32.toJson (x : Binary32) : Json :=
  match x.magnitude with
  | .finite .. => .number (x.render .stored32)
  | _ => .null

def Binary64.toJson (x : Binary64) : Json :=
  match x.magnitude with
  | .finite .. => .number (x.render .stored64)
  | _ => .null

def Binary32.ofJson? (j : Json) : Option Binary32 := j.numeral?.bind Numeral.binary32?

def Binary64.ofJson? (j : Json) : Option Binary64 := j.numeral?.bind Numeral.binary64?

end StackBackend
