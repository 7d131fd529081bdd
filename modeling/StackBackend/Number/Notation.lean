import StackBackend.Number.Decimal

/-! Layouts of decimal numbers: the one of the stored text form, and the one of
instruction listings. -/

namespace StackBackend

/-- The decisions of a written form, on the decimal point position of the digits
(the number is `0.digits * 10 ^ point`). -/
structure FloatLayout where
  /-- Positions above this one and up to `plainUpTo` are written without an
  exponent. No bounds: every number is written without one. -/
  plain : Option (Int × Int)
  /-- Whether an integral number keeps a fraction, as in `1.0`. -/
  pointZero : Bool
  tie : Tie
  /-- Text of infinity, by whether it is negative. -/
  infinite : Bool → String
  notANumber : String

namespace FloatLayout

/-- Stored numbers keep a fraction and take an exponent far from one. There is no
text for infinity. -/
def stored (above upTo : Int) : FloatLayout where
  plain := some (above, upTo)
  pointZero := true
  tie := .toEven
  infinite := fun _ => "null"
  notANumber := "null"

def stored32 : FloatLayout := stored (-6) 13

def stored64 : FloatLayout := stored (-5) 16

/-- Listings write every digit and no exponent. -/
def listed : FloatLayout where
  plain := none
  pointZero := false
  tie := .up
  infinite := fun negative => if negative then "-inf" else "inf"
  notANumber := "NaN"

def zeros (n : Nat) : String := String.ofList (List.replicate n '0')

/-- Digits with the point at `point`. -/
def positional (l : FloatLayout) (digits : List Char) (point : Int) : String :=
  if point ≤ 0 then "0." ++ zeros point.natAbs ++ String.ofList digits
  else
    let whole := point.toNat
    if whole < digits.length then
      String.ofList (digits.take whole) ++ "." ++ String.ofList (digits.drop whole)
    else
      String.ofList digits ++ zeros (whole - digits.length) ++ if l.pointZero then ".0" else ""

/-- One digit, the rest as a fraction, and a signed exponent. -/
def scientific (digits : List Char) (point : Int) : String :=
  let power := point - 1
  let fraction := digits.drop 1
  String.ofList (digits.take 1) ++
    (if fraction.isEmpty then "" else "." ++ String.ofList fraction) ++
    "e" ++ (if power < 0 then "-" else "+") ++ toString power.natAbs

def layout (l : FloatLayout) (d : Decimal) : String :=
  if d.digits = 0 then (if l.pointZero then "0.0" else "0")
  else
    let digits := Nat.toDigits 10 d.digits
    let point := digits.length + d.exponent
    match l.plain with
    | none => l.positional digits point
    | some (above, upTo) =>
      if above < point ∧ point ≤ upTo then l.positional digits point
      else scientific digits point

def render (l : FloatLayout) (f : FloatFormat) (negative : Bool) (m : Magnitude) : String :=
  match m with
  | .finite significand exponent =>
    (if negative then "-" else "") ++
      l.layout (if significand = 0 then ⟨0, 0⟩ else f.shortest l.tie significand exponent)
  | .infinite => l.infinite negative
  | .notANumber => l.notANumber

end FloatLayout

def Binary32.render (x : Binary32) (l : FloatLayout) : String :=
  l.render .single x.negative x.magnitude

def Binary64.render (x : Binary64) (l : FloatLayout) : String :=
  l.render .double x.negative x.magnitude

end StackBackend
