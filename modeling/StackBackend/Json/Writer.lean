import StackBackend.Json.Basic

/-! Writing JSON trees, on one line without spaces or over indented lines. The
functions append to the text written so far. -/

namespace StackBackend.Json

def hexDigit (n : Nat) : Char := Nat.digitChar n

/-- A character inside quotes. Only the quote, the backslash and the control
characters below the space are escaped. -/
def escaped (c : Char) : String :=
  match c with
  | '"' => "\\\""
  | '\\' => "\\\\"
  | '\x08' => "\\b"
  | '\x0c' => "\\f"
  | '\n' => "\\n"
  | '\r' => "\\r"
  | '\t' => "\\t"
  | c =>
    if c.toNat < 0x20 then
      String.ofList ['\\', 'u', '0', '0', hexDigit (c.toNat / 16), hexDigit (c.toNat % 16)]
    else c.toString

def writeString (out s : String) : String :=
  (s.foldl (fun out c => out ++ escaped c) (out.push '"')).push '"'

/-- A value without a tree is written as null. -/
def writeScalar (out : String) : Json → String
  | .null | .unreadable => out ++ "null"
  | .bool true => out ++ "true"
  | .bool false => out ++ "false"
  | .number literal => out ++ literal
  | .string s => writeString out s
  | .array _ => out ++ "[]"
  | .object _ => out ++ "\x7b\x7d"

mutual
def writeCompact (out : String) : Json → String
  | .array items => (compactItems (out.push '[') true items).push ']'
  | .object members => (compactMembers (out.push '\x7b') true members).push '\x7d'
  | .null => writeScalar out .null
  | .bool b => writeScalar out (.bool b)
  | .number literal => writeScalar out (.number literal)
  | .string s => writeScalar out (.string s)
  | .unreadable => writeScalar out .unreadable
def compactItems (out : String) (first : Bool) : List Json → String
  | [] => out
  | item :: rest =>
    compactItems (writeCompact (if first then out else out.push ',') item) false rest
def compactMembers (out : String) (first : Bool) : List (String × Json) → String
  | [] => out
  | (key, value) :: rest =>
    compactMembers
      (writeCompact ((writeString (if first then out else out.push ',') key).push ':') value)
      false rest
end

def compact (j : Json) : String := writeCompact "" j

/-- A new line, indented by two blanks a level. -/
def newLine (out : String) (level : Nat) : String :=
  (List.replicate level "  ").foldl (· ++ ·) (out.push '\n')

mutual
def writePretty (out : String) (level : Nat) : Json → String
  | .array [] => out ++ "[]"
  | .array items =>
    (newLine (prettyItems (out.push '[') (level + 1) true items) level).push ']'
  | .object [] => out ++ "\x7b\x7d"
  | .object members =>
    (newLine (prettyMembers (out.push '\x7b') (level + 1) true members) level).push '\x7d'
  | .null => writeScalar out .null
  | .bool b => writeScalar out (.bool b)
  | .number literal => writeScalar out (.number literal)
  | .string s => writeScalar out (.string s)
  | .unreadable => writeScalar out .unreadable
def prettyItems (out : String) (level : Nat) (first : Bool) : List Json → String
  | [] => out
  | item :: rest =>
    prettyItems (writePretty (newLine (if first then out else out.push ',') level) level item)
      level false rest
def prettyMembers (out : String) (level : Nat) (first : Bool) :
    List (String × Json) → String
  | [] => out
  | (key, value) :: rest =>
    prettyMembers
      (writePretty
        (writeString (newLine (if first then out else out.push ',') level) key ++ ": ")
        level value)
      level false rest
end

/-- The text with one member or item to a line. -/
def pretty (j : Json) : String := writePretty "" 0 j

end StackBackend.Json
