import StackBackend.Json.Numeral

/-! JSON text as tokens. The scanner reads one character at a time, so it is a
fold over the text, and its state says what the next character may be. -/

namespace StackBackend.Json

inductive Token where
  | openObject
  | closeObject
  | openArray
  | closeArray
  | comma
  | colon
  | null
  | bool (value : Bool)
  | number (literal : String)
  /-- A text, if it can be read. -/
  | string (value : Option String)
deriving DecidableEq, Repr

/-- Escapes for characters beyond 16 bits come in pairs of a high and a low half. -/
def isHighHalf (n : Nat) : Bool := 0xD800 ≤ n && n < 0xDC00

def isLowHalf (n : Nat) : Bool := 0xDC00 ≤ n && n < 0xE000

def combineHalves (high low : Nat) : Char :=
  Char.ofNat (0x10000 + (high - 0xD800) * 0x400 + (low - 0xDC00))

structure PartialText where
  /-- The characters in reverse; none once half of a pair was left alone. -/
  chars : Option (List Char)
  /-- The high half of a pair, if it came last. -/
  high : Option Nat

namespace PartialText

def empty : PartialText := ⟨some [], none⟩

/-- Adds a character or half of a pair by its code. -/
def push (t : PartialText) (code : Nat) : PartialText :=
  match t.high with
  | some high =>
    if isLowHalf code then ⟨t.chars.map (combineHalves high code :: ·), none⟩
    else ⟨none, none⟩
  | none =>
    if isHighHalf code then ⟨t.chars, some code⟩
    else if isLowHalf code then ⟨none, none⟩
    else ⟨t.chars.map (Char.ofNat code :: ·), none⟩

/-- The text, unless half of a pair stands alone in it. -/
def text? (t : PartialText) : Option String :=
  match t.high with
  | some _ => none
  | none => t.chars.map fun cs => String.ofList cs.reverse

end PartialText

inductive Scan where
  | between
  /-- A word, kept in reverse. -/
  | word (read : List Char)
  | text (read : PartialText)
  | escape (read : PartialText)
  /-- Inside `\uXXXX`, with the value so far and how many digits are missing. -/
  | unit (read : PartialText) (value : Nat) (missing : Nat)

structure Scanner where
  scan : Scan
  tokens : List Token

def isBlank (c : Char) : Bool := c = ' ' || c = '\n' || c = '\t' || c = '\r'

/-- Characters that literal names and numbers are made of. -/
def isWordChar (c : Char) : Bool :=
  c.isAlphanum || c = '-' || c = '+' || c = '.'

def Token.ofWord? (word : List Char) : Option Token :=
  match word with
  | ['n', 'u', 'l', 'l'] => some .null
  | ['t', 'r', 'u', 'e'] => some (.bool true)
  | ['f', 'a', 'l', 's', 'e'] => some (.bool false)
  | cs => (Numeral.ofChars? cs).map fun _ => .number (String.ofList cs)

def Token.ofPunctuation? (c : Char) : Option Token :=
  if c = '\x7b' then some .openObject
  else if c = '\x7d' then some .closeObject
  else if c = '[' then some .openArray
  else if c = ']' then some .closeArray
  else if c = ',' then some .comma
  else if c = ':' then some .colon
  else none

def escapeValue? (c : Char) : Option Char :=
  match c with
  | '"' => some '"'
  | '\\' => some '\\'
  | '/' => some '/'
  | 'b' => some '\x08'
  | 'f' => some '\x0c'
  | 'n' => some '\n'
  | 'r' => some '\r'
  | 't' => some '\t'
  | _ => none

def hexValue? (c : Char) : Option Nat :=
  if c.isDigit then some (digitValue c)
  else if 'a' ≤ c ∧ c ≤ 'f' then some (c.toNat - 'a'.toNat + 10)
  else if 'A' ≤ c ∧ c ≤ 'F' then some (c.toNat - 'A'.toNat + 10)
  else none

namespace Scanner

def initial : Scanner := ⟨.between, []⟩

def between (tokens : List Token) (c : Char) : Option Scanner :=
  if isBlank c then some ⟨.between, tokens⟩
  else if c = '"' then some ⟨.text .empty, tokens⟩
  else if isWordChar c then some ⟨.word [c], tokens⟩
  else (Token.ofPunctuation? c).map fun t => ⟨.between, t :: tokens⟩

def step (s : Scanner) (c : Char) : Option Scanner :=
  match s.scan with
  | .between => between s.tokens c
  | .word read =>
    if isWordChar c then some ⟨.word (c :: read), s.tokens⟩
    else do
      let token ← Token.ofWord? read.reverse
      between (token :: s.tokens) c
  | .text read =>
    if c = '"' then some ⟨.between, .string read.text? :: s.tokens⟩
    else if c = '\\' then some ⟨.escape read, s.tokens⟩
    else if c.toNat < 0x20 then none
    else some ⟨.text (read.push c.toNat), s.tokens⟩
  | .escape read =>
    if c = 'u' then some ⟨.unit read 0 4, s.tokens⟩
    else (escapeValue? c).map fun c => ⟨.text (read.push c.toNat), s.tokens⟩
  | .unit read value missing => do
    let value := value * 16 + (← hexValue? c)
    if missing ≤ 1 then pure ⟨.text (read.push value), s.tokens⟩
    else pure ⟨.unit read value (missing - 1), s.tokens⟩

def finish (s : Scanner) : Option (List Token) :=
  match s.scan with
  | .between => some s.tokens.reverse
  | .word read => do
    let token ← Token.ofWord? read.reverse
    pure (token :: s.tokens).reverse
  | _ => none

end Scanner

def tokens? (text : String) : Option (List Token) := do
  let s ← text.toList.foldlM Scanner.step Scanner.initial
  s.finish

end StackBackend.Json
