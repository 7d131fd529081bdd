import StackBackend.Json.Basic
import StackBackend.Number.Binary

/-! Numbers as JSON writes them. An integer is read exactly. A number with a
fraction or an exponent is read through as many leading digits as fit in 64
bits, scaled by one power of ten, with a rounding at each of the two steps. -/

namespace StackBackend

structure Numeral where
  negative : Bool
  whole : List Char
  /-- Digits after the point; a point needs at least one. -/
  fraction : Option (List Char)
  /-- Sign and digits after the `e`. -/
  exponent : Option (Bool × List Char)
deriving DecidableEq, Repr

def digitValue (c : Char) : Nat := c.toNat - '0'.toNat

def digitsValue (digits : List Char) : Nat :=
  digits.foldl (fun n c => n * 10 + digitValue c) 0

namespace Numeral

def digitRun (cs : List Char) : List Char × List Char := cs.span Char.isDigit

def readExponent (cs : List Char) : Option (Option (Bool × List Char)) :=
  match cs with
  | [] => some none
  | mark :: rest =>
    if mark = 'e' ∨ mark = 'E' then
      let (negative, digits) := match rest with
        | '-' :: digits => (true, digits)
        | '+' :: digits => (false, digits)
        | digits => (false, digits)
      if digits ≠ [] ∧ digits.all Char.isDigit then some (some (negative, digits)) else none
    else none

def readFraction (cs : List Char) : Option (Option (List Char) × List Char) :=
  match cs with
  | '.' :: rest =>
    let (digits, rest) := digitRun rest
    if digits.isEmpty then none else some (some digits, rest)
  | rest => some (none, rest)

/-- One digit, or several of which the first is no zero. -/
def wholeOk (digits : List Char) : Bool :=
  match digits with
  | [] => false
  | [_] => true
  | first :: _ => first ≠ '0'

def ofChars? (cs : List Char) : Option Numeral := do
  let (negative, cs) := match cs with
    | '-' :: cs => (true, cs)
    | cs => (false, cs)
  let (whole, cs) := digitRun cs
  if wholeOk whole then
    let (fraction, cs) ← readFraction cs
    let exponent ← readExponent cs
    pure ⟨negative, whole, fraction, exponent⟩
  else none

def ofText? (literal : String) : Option Numeral := ofChars? literal.toList

/-- The integer written, if there is neither fraction nor exponent. A negative
zero is no integer, since it keeps its sign. -/
def int? (n : Numeral) : Option Int :=
  match n.fraction, n.exponent with
  | none, none =>
    let value := digitsValue n.whole
    if n.negative then (if value = 0 then none else some (-value)) else some value
  | _, _ => none

/-- Reads digits on from `significand` while the value stays below `2 ^ 64`.
Returns the value and how many digits were left out. -/
def takeDigits (significand : Nat) : List Char → Nat × Nat
  | [] => (significand, 0)
  | c :: rest =>
    let next := significand * 10 + digitValue c
    if next < twoPow 64 then takeDigits next rest else (significand, rest.length + 1)

/-- The largest power of ten below infinity. -/
def maxPower : Nat := 308

/-- Exponents this large are not told apart any more. -/
def exponentLimit : Nat := twoPow 31 - 1

def product (f : FloatFormat) (a b : Nat) : Nat :=
  match f.magnitude a, f.magnitude b with
  | .finite m e, .finite n d =>
    let r := Ratio.ofPower (m * n) (e + d)
    f.ofRatio r.num r.den
  | _, _ => f.infinityBits

def quotient (f : FloatFormat) (a b : Nat) : Nat :=
  match f.magnitude a, f.magnitude b with
  | .finite m e, .finite n d =>
    let r := Ratio.ofPower 1 (e - d)
    f.ofRatio (m * r.num) (n * r.den)
  | _, _ => 0

def powerOfTen (n : Nat) : Nat := FloatFormat.double.ofRatio (tenPow n) 1

/-- Divides by `10 ^ n`, in steps of at most the largest power. A number that has
become zero stays zero. -/
def divideByPower (bits n : Nat) : Nat :=
  if _h : n ≤ maxPower then quotient .double bits (powerOfTen n)
  else if bits = 0 then 0
  else divideByPower (quotient .double bits (powerOfTen maxPower)) (n - maxPower)
termination_by n
decreasing_by simp only [maxPower] at _h ⊢; omega

/-- The pattern of `significand * 10 ^ exponent`, unless it is too large. -/
def scale (significand : Nat) (exponent : Int) : Option Nat :=
  let bits := FloatFormat.double.ofRatio significand 1
  match exponent with
  | .ofNat e =>
    if e ≤ maxPower then
      let bits := product .double bits (powerOfTen e)
      if bits < FloatFormat.double.infinityBits then some bits else none
    else if bits = 0 then some 0
    else none
  | .negSucc e => some (divideByPower bits (e + 1))

/-- The binary number read from a literal, unless it is too large. -/
def binary64? (n : Numeral) : Option Binary64 :=
  let (significand, dropped) := takeDigits 0 n.whole
  match n.fraction, n.exponent with
  | none, none =>
    (scale significand dropped).map (.ofParts n.negative)
  | fraction, exponent =>
    let digits := fraction.getD []
    let (significand, skipped) := takeDigits significand digits
    let start : Int := dropped - (digits.length - skipped : Nat)
    match exponent with
    | none => (scale significand start).map (.ofParts n.negative)
    | some (negativePower, power) =>
      let power := digitsValue power
      if exponentLimit < power then
        if significand ≠ 0 ∧ ¬ negativePower then none else some (.ofParts n.negative 0)
      else
        let exponent := if negativePower then start - power else start + power
        (scale significand exponent).map (.ofParts n.negative)

/-- An integer that fits in a word is rounded once; every other number is read as
a wide one first. -/
def binary32? (n : Numeral) : Option Binary32 :=
  match n.int? with
  | some value =>
    if -twoPow 63 ≤ value ∧ value < twoPow 64 then some (.ofInt value)
    else n.binary64?.map Binary64.toBinary32
  | none => n.binary64?.map Binary64.toBinary32

end Numeral

end StackBackend
