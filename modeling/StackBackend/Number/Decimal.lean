import StackBackend.Number.Binary

/-! The shortest decimal that reads back to a binary number. For one, two, three
digits and so on, the two neighbours of the number on that decimal grid are
tried; the first grid with a neighbour inside the rounding interval wins. -/

namespace StackBackend

/-- The number `digits * 10 ^ exponent`. -/
structure Decimal where
  digits : Nat
  exponent : Int
deriving DecidableEq, Repr

/-- Which of two equally close decimals is taken. -/
inductive Tie where
  | toEven
  | up
deriving DecidableEq, Repr

/-- The reals that round to one binary number, in units of a quarter of its last
place: from `low` to `high`, with the number itself at `mid`. -/
structure RoundingInterval where
  low : Nat
  mid : Nat
  high : Nat
  /-- Power of two of a quarter of the last place. -/
  exponent : Int
  /-- Whether the ends round to the number too. -/
  closed : Bool

namespace FloatFormat

/-- The gap below a power of two is half the gap above it, save for the lowest
numbers, which are evenly spaced. -/
def interval (f : FloatFormat) (significand : Nat) (exponent : Int) : RoundingInterval where
  low := if significand = twoPow (f.precision - 1) ∧ f.lowest < exponent
    then 4 * significand - 1 else 4 * significand - 2
  mid := 4 * significand
  high := 4 * significand + 2
  exponent := exponent - 2
  closed := significand % 2 = 0

end FloatFormat

/-- Number of decimal digits, none for zero. -/
def decimalLength (n : Nat) : Nat := if n = 0 then 0 else (Nat.toDigits 10 n).length

namespace Ratio

/-- The power of ten just above a positive fraction. -/
def decimalPoint (r : Ratio) : Int :=
  if r.den ≤ r.num then decimalLength (r.num / r.den)
  else 1 - (decimalLength ((r.den - 1) / r.num) : Int)

/-- The fraction in units of `10 ^ exponent`. -/
def inUnits (r : Ratio) (exponent : Int) : Ratio :=
  match exponent with
  | .ofNat e => ⟨r.num, r.den * tenPow e⟩
  | .negSucc e => ⟨r.num * tenPow (e + 1), r.den⟩

end Ratio

namespace RoundingInterval

/-- Whether `digits` units of `10 ^ exponent` lie in the interval. -/
def holds (i : RoundingInterval) (digits : Nat) (exponent : Int) : Bool :=
  let low := (Ratio.ofPower i.low i.exponent).inUnits exponent
  let high := (Ratio.ofPower i.high i.exponent).inUnits exponent
  if i.closed then low.num ≤ digits * low.den && digits * high.den ≤ high.num
  else low.num < digits * low.den && digits * high.den < high.num

/-- The neighbours of the number on the grid of `10 ^ exponent` that lie in the
interval; of two, the closer one. -/
def onGrid (i : RoundingInterval) (tie : Tie) (exponent : Int) : Option Decimal :=
  let value := (Ratio.ofPower i.mid i.exponent).inUnits exponent
  let below := value.num / value.den
  let above := below + 1
  match i.holds below exponent, i.holds above exponent with
  | false, false => none
  | true, false => some ⟨below, exponent⟩
  | false, true => some ⟨above, exponent⟩
  | true, true =>
    let twice := 2 * (value.num % value.den)
    if twice < value.den then some ⟨below, exponent⟩
    else if value.den < twice then some ⟨above, exponent⟩
    else match tie with
      | .up => some ⟨above, exponent⟩
      | .toEven => some ⟨below + below % 2, exponent⟩

/-- The first grid with a hit, from the coarsest given. -/
def search (i : RoundingInterval) (tie : Tie) (point : Int) : Nat → Nat → Option Decimal
  | _, 0 => none
  | digits, steps + 1 =>
    match i.onGrid tie (point - digits) with
    | some d => some d
    | none => search i tie point (digits + 1) steps

end RoundingInterval

/-- The same number without trailing zeros. -/
def Decimal.trim (d : Decimal) : Nat → Decimal
  | 0 => d
  | steps + 1 =>
    if d.digits ≠ 0 ∧ d.digits % 10 = 0 then
      Decimal.trim ⟨d.digits / 10, d.exponent + 1⟩ steps
    else d

/-- Seventeen digits tell any two numbers of the wide format apart, and nine any
two of the narrow one, so the search ends at the latest there. -/
def FloatFormat.shortest (f : FloatFormat) (tie : Tie) (significand : Nat) (exponent : Int) :
    Decimal :=
  let point := (Ratio.ofPower significand exponent).decimalPoint
  match (f.interval significand exponent).search tie point 1 17 with
  | some d => d.trim 17
  | none => ⟨0, 0⟩

end StackBackend
