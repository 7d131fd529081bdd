import StackBackend.Json.Token

/-! Reading a JSON tree from its tokens. The reader holds the containers that are
open, innermost first; each token changes this stack by at most one container.
Text that is not well formed has no tree at all. -/

namespace StackBackend.Json

/-- A container around the value that is read next. Contents are in reverse. -/
inductive Frame where
  | array (items : List Json)
  | object (members : List (Option String × Json)) (key : Option String)

inductive Phase where
  | value
  | firstItem
  /-- A key; just after the opening brace also the closing one. -/
  | key (members : List (Option String × Json)) (first : Bool)
  | colon (members : List (Option String × Json)) (key : Option String)
  | complete (value : Json)

structure Reader where
  frames : List Frame
  phase : Phase

/-- A value whose token is all of it. -/
def Token.scalar? : Token → Option Json
  | .null => some .null
  | .bool b => some (.bool b)
  | .number literal => some (.number literal)
  | .string (some s) => some (.string s)
  | .string none => some .unreadable
  | _ => none

/-- An object, if all of its keys can be read. -/
def ofMembers (members : List (Option String × Json)) : Json :=
  match members.mapM fun (key, value) => key.map (·, value) with
  | some members => .object members
  | none => .unreadable

namespace Reader

def initial : Reader := ⟨[], .value⟩

/-- A token where a value may start. -/
def startValue (frames : List Frame) (t : Token) : Option Reader :=
  match t with
  | .openArray => some ⟨.array [] :: frames, .firstItem⟩
  | .openObject => some ⟨frames, .key [] true⟩
  | t => t.scalar?.map fun v => ⟨frames, .complete v⟩

/-- The end of a container that stands in `frames`. No more than `limit` of them
nest in what can be read. -/
def close (limit : Nat) (frames : List Frame) (container : Json) : Reader :=
  ⟨frames, .complete (if (frames.take limit).length < limit then container else .unreadable)⟩

def step (limit : Nat) (r : Reader) (t : Token) : Option Reader :=
  match r.phase, r.frames, t with
  | .firstItem, .array _ :: frames, .closeArray => some (close limit frames (.array []))
  | .firstItem, frames, t => startValue frames t
  | .value, frames, t => startValue frames t
  | .key members _, frames, .string key => some ⟨frames, .colon members key⟩
  | .key _ true, frames, .closeObject => some (close limit frames (.object []))
  | .colon members key, frames, .colon => some ⟨.object members key :: frames, .value⟩
  | .complete v, .array items :: frames, .comma => some ⟨.array (v :: items) :: frames, .value⟩
  | .complete v, .array items :: frames, .closeArray =>
    some (close limit frames (.array (v :: items).reverse))
  | .complete v, .object members key :: frames, .comma =>
    some ⟨frames, .key ((key, v) :: members) false⟩
  | .complete v, .object members key :: frames, .closeObject =>
    some (close limit frames (ofMembers ((key, v) :: members).reverse))
  | _, _, _ => none

def finish (r : Reader) : Option Json :=
  match r.phase, r.frames with
  | .complete v, [] => some v
  | _, _ => none

end Reader

def ofTokens? (limit : Nat) (tokens : List Token) : Option Json := do
  let r ← tokens.foldlM (Reader.step limit) Reader.initial
  r.finish

/-- The tree written in `text`. Containers below `limit` others cannot be read. -/
def parse? (limit : Nat) (text : String) : Option Json := do
  ofTokens? limit (← tokens? text)

end StackBackend.Json
