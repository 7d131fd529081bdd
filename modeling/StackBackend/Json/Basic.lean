/-! JSON trees. A number keeps the characters it is written with, so no reader
loses digits, and an object keeps its members in order, repeated keys included.
What a text holds beyond such trees can be passed over, but not read. -/

namespace StackBackend

inductive Json where
  | null
  | bool (value : Bool)
  | number (literal : String)
  | string (value : String)
  | array (items : List Json)
  | object (members : List (String × Json))
  /-- A value that is well formed and has no tree: it is nested too deeply, or half
  of a pair of escapes stands alone in it. -/
  | unreadable
deriving Repr, Inhabited

namespace Json

def ofNat (n : Nat) : Json := .number (toString n)

def ofInt (n : Int) : Json := .number (toString n)

def ofOption {α : Type} (encode : α → Json) : Option α → Json
  | none => .null
  | some a => encode a

def ofList {α : Type} (encode : α → Json) (items : List α) : Json :=
  .array (items.map encode)

/-- An alternative that carries data, under its name. -/
def tagged (name : String) (payload : Json) : Json := .object [(name, payload)]

mutual
/-- How many arrays and objects stand around the innermost value. -/
def depth : Json → Nat
  | .array items => depthItems items + 1
  | .object members => depthMembers members + 1
  | .null | .bool _ | .number _ | .string _ | .unreadable => 0
def depthItems : List Json → Nat
  | [] => 0
  | item :: rest => max (depth item) (depthItems rest)
def depthMembers : List (String × Json) → Nat
  | [] => 0
  | (_, value) :: rest => max (depth value) (depthMembers rest)
end

end Json

end StackBackend
