import StackBackend.Number.Power

/-! Binary floating point numbers of two widths, held as their bit patterns and
computed with as exact fractions. A pattern without its sign counts the numbers
below it, so rounding is one division and running past the largest number gives
the pattern of infinity. -/

namespace StackBackend

/-- The quotient rounded to the nearest integer, a half to the even one. -/
def roundDiv (num den : Nat) : Nat :=
  let quotient := num / den
  let twice := 2 * (num % den)
  if twice < den then quotient
  else if den < twice then quotient + 1
  else quotient + quotient % 2

structure FloatFormat where
  /-- Bits of the significand, the leading one included. -/
  precision : Nat
  exponentBits : Nat

/-- A magnitude: either `significand * 2 ^ exponent`, or past every number. -/
inductive Magnitude where
  | finite (significand : Nat) (exponent : Int)
  | infinite
  | notANumber
deriving DecidableEq, Repr

namespace FloatFormat

def single : FloatFormat := ⟨24, 8⟩

def double : FloatFormat := ⟨53, 11⟩

/-- Exponent of the last place of the smallest numbers. -/
def lowest (f : FloatFormat) : Int := 3 - twoPow (f.exponentBits - 1) - f.precision

def infinityBits (f : FloatFormat) : Nat := (twoPow f.exponentBits - 1) * twoPow (f.precision - 1)

/-- The fraction `num / den * 2 ^ (-exponent)`, rounded. -/
def scaled (num den : Nat) (exponent : Int) : Nat :=
  match exponent with
  | .ofNat e => roundDiv num (den * twoPow e)
  | .negSucc e => roundDiv (num * twoPow (e + 1)) den

/-- Whether `num / den` is below `2 ^ exponent`. -/
def belowPower (num den : Nat) (exponent : Int) : Bool :=
  match exponent with
  | .ofNat e => num < den * twoPow e
  | .negSucc e => num * twoPow (e + 1) < den

/-- Exponent of the last place of the numbers next to `num / den`. -/
def placeOf (f : FloatFormat) (num den : Nat) : Int :=
  let top : Int := Nat.log2 num - Nat.log2 den
  let leading := if belowPower num den top then top - 1 else top
  max f.lowest (leading - (f.precision - 1))

/-- Pattern of the number nearest to `num / den`. -/
def ofRatio (f : FloatFormat) (num den : Nat) : Nat :=
  if num = 0 then 0 else
    let place := f.placeOf num den
    min f.infinityBits
      ((place - f.lowest).toNat * twoPow (f.precision - 1) + scaled num den place)

def magnitude (f : FloatFormat) (bits : Nat) : Magnitude :=
  let hidden := twoPow (f.precision - 1)
  let biased := bits / hidden
  let fraction := bits % hidden
  if biased = 0 then .finite fraction f.lowest
  else if biased < twoPow f.exponentBits - 1 then .finite (fraction + hidden) (f.lowest + biased - 1)
  else if fraction = 0 then .infinite
  else .notANumber

end FloatFormat

/-- A nonnegative fraction. -/
structure Ratio where
  num : Nat
  den : Nat

/-- The fraction `significand * 2 ^ exponent`. -/
def Ratio.ofPower (significand : Nat) : Int → Ratio
  | .ofNat e => ⟨significand * twoPow e, 1⟩
  | .negSucc e => ⟨significand, twoPow (e + 1)⟩

structure Binary32 where
  bits : UInt32
deriving DecidableEq, Repr

structure Binary64 where
  bits : UInt64
deriving DecidableEq, Repr

namespace Binary32

def ofParts (negative : Bool) (magnitudeBits : Nat) : Binary32 :=
  ⟨UInt32.ofNat (magnitudeBits + if negative then twoPow 31 else 0)⟩

def negative (x : Binary32) : Bool := twoPow 31 ≤ x.bits.toNat

def magnitude (x : Binary32) : Magnitude :=
  FloatFormat.single.magnitude (x.bits.toNat % twoPow 31)

def ofInt (n : Int) : Binary32 :=
  ofParts (decide (n < 0)) (FloatFormat.single.ofRatio n.natAbs 1)

end Binary32

namespace Binary64

def ofParts (negative : Bool) (magnitudeBits : Nat) : Binary64 :=
  ⟨UInt64.ofNat (magnitudeBits + if negative then twoPow 63 else 0)⟩

def negative (x : Binary64) : Bool := twoPow 63 ≤ x.bits.toNat

def magnitude (x : Binary64) : Magnitude :=
  FloatFormat.double.magnitude (x.bits.toNat % twoPow 63)

def ofInt (n : Int) : Binary64 :=
  ofParts (decide (n < 0)) (FloatFormat.double.ofRatio n.natAbs 1)

/-- The nearest number of the narrow width; past the largest one lies infinity. -/
def toBinary32 (x : Binary64) : Binary32 :=
  match x.magnitude with
  | .finite m e =>
    let r := Ratio.ofPower m e
    .ofParts x.negative (FloatFormat.single.ofRatio r.num r.den)
  | .infinite => .ofParts x.negative FloatFormat.single.infinityBits
  | .notANumber => .ofParts x.negative (FloatFormat.single.infinityBits + twoPow 22)

end Binary64

end StackBackend
