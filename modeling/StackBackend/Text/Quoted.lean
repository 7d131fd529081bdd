import StackBackend.Text.Invisible

/-! Strings between quotes, as listings show them: what would not show is written
by its code point. -/

namespace StackBackend.Text

/-- The code point in hexadecimal digits, between braces. -/
def codePoint (c : Char) : String :=
  "\\u\x7b" ++ String.ofList (Nat.toDigits 16 c.toNat) ++ "\x7d"

def shown (c : Char) : String :=
  if c = '"' then "\\\""
  else if c = '\\' then "\\\\"
  else if c = '\n' then "\\n"
  else if c = '\r' then "\\r"
  else if c = '\t' then "\\t"
  else if c.toNat = 0 then "\\0"
  else if isInvisible c then codePoint c
  else c.toString

def quote (s : String) : String :=
  (s.foldl (fun out c => out ++ shown c) "\"").push '"'

end StackBackend.Text
