import StackBackend.Json.Numeral
import StackBackend.Toml.Table

/-! Numbers, dates and truth values of TOML, each written as one word. -/

namespace StackBackend.Toml

/-- The digits of a run in which single underscores may stand between digits. -/
def grouped? (isDigit : Char → Bool) : List Char → Option (List Char)
  | [] => none
  | [c] => if isDigit c then some [c] else none
  | c :: d :: rest =>
    if isDigit c then
      match d, rest with
      | '_', e :: rest => (grouped? isDigit (e :: rest)).map (c :: ·)
      | d, rest => (grouped? isDigit (d :: rest)).map (c :: ·)
    else none

def isDigitOf (base : Nat) (c : Char) : Bool :=
  c.isDigit && c.toNat - '0'.toNat < base ||
    base = 16 && ('a' ≤ c && c ≤ 'f' || 'A' ≤ c && c ≤ 'F')

def digitOf (c : Char) : Nat :=
  if c.isDigit then c.toNat - '0'.toNat else c.toLower.toNat - 'a'.toNat + 10

def naturalOf (base : Nat) (digits : List Char) : Nat :=
  digits.foldl (fun n c => n * base + digitOf c) 0

def natural? (base : Nat) (cs : List Char) : Option Nat :=
  (grouped? (isDigitOf base) cs).map (naturalOf base)

/-- Decimal digits without a leading zero. -/
def decimal? (cs : List Char) : Option (List Char) :=
  if cs.head? = some '0' && cs ≠ ['0'] then none else grouped? Char.isDigit cs

def signed (cs : List Char) : Bool × List Char :=
  match cs with
  | '-' :: rest => (true, rest)
  | '+' :: rest => (false, rest)
  | cs => (false, cs)

def unbounded? (cs : List Char) : Option Int :=
  match cs with
  | '0' :: 'x' :: rest => (natural? 16 rest).map Int.ofNat
  | '0' :: 'o' :: rest => (natural? 8 rest).map Int.ofNat
  | '0' :: 'b' :: rest => (natural? 2 rest).map Int.ofNat
  | cs =>
    let (negative, cs) := signed cs
    (decimal? cs).map fun digits =>
      let n : Int := naturalOf 10 digits
      if negative then -n else n

/-- Integers have 64 bits. -/
def integer? (cs : List Char) : Option Int :=
  (unbounded? cs).filter fun n => -twoPow 63 ≤ n && n < twoPow 63

def isRunChar (c : Char) : Bool := c.isDigit || c = '_'

/-- The exponent of a float, none if there is no such thing. -/
def exponent? : List Char → Option Int
  | 'e' :: rest | 'E' :: rest =>
    let (negative, rest) := signed rest
    (grouped? Char.isDigit rest).map fun digits =>
      let n : Int := naturalOf 10 digits
      if negative then -n else n
  | _ => none

/-- A significand, an exponent of ten and how many digits the significand has. -/
def scientific? (cs : List Char) : Option (List Char × Int) := do
  let (whole, rest) := cs.span isRunChar
  let whole ← decimal? whole
  match rest with
  | '.' :: rest =>
    let (fraction, rest) := rest.span isRunChar
    let fraction ← grouped? Char.isDigit fraction
    let exponent ← if rest.isEmpty then some 0 else exponent? rest
    pure (whole ++ fraction, exponent - fraction.length)
  | rest => do pure (whole, ← exponent? rest)

/-- Whether a decimal is rounded to infinity. Far from the largest float the number
of digits decides. -/
def overflows (digits : List Char) (exponent : Int) : Bool :=
  let n := naturalOf 10 digits
  let point := (Nat.toDigits 10 n).length + exponent
  if n = 0 || point < 300 then false
  else if 320 < point then true
  else
    let bits := if 0 ≤ exponent then FloatFormat.double.ofRatio (n * tenPow exponent.toNat) 1
      else FloatFormat.double.ofRatio n (tenPow (-exponent).toNat)
    bits = FloatFormat.double.infinityBits

/-- A positive float has to be finite unless it is written as infinity. -/
def isFloat (cs : List Char) : Bool :=
  let (negative, cs) := signed cs
  if cs = "inf".toList || cs = "nan".toList then true
  else match scientific? cs with
    | some (digits, exponent) => negative || !overflows digits exponent
    | none => false

/-- A number of two digits. -/
def pair? (a b : Char) : Option Nat :=
  if a.isDigit && b.isDigit then some (digitOf a * 10 + digitOf b) else none

def pairUpTo (limit : Nat) (a b : Char) : Bool := (pair? a b).any (· ≤ limit)

def daysIn (year month : Nat) : Nat :=
  if month = 2 then
    if year % 4 = 0 && (year % 100 ≠ 0 || year % 400 = 0) then 29 else 28
  else if month = 4 || month = 6 || month = 9 || month = 11 then 30
  else 31

/-- What follows a date. -/
def afterDate? : List Char → Option (List Char)
  | y :: y' :: y'' :: y''' :: '-' :: m :: m' :: '-' :: d :: d' :: rest => do
    let year := 100 * (← pair? y y') + (← pair? y'' y''')
    let month ← pair? m m'
    let day ← pair? d d'
    if 1 ≤ month && month ≤ 12 && 1 ≤ day && day ≤ daysIn year month then some rest else none
  | _ => none

def afterFraction? : List Char → Option (List Char)
  | '.' :: rest =>
    let (digits, rest) := rest.span Char.isDigit
    if digits.isEmpty then none else some rest
  | rest => some rest

/-- What follows a time of day. A minute may have a leap second. -/
def afterTime? : List Char → Option (List Char)
  | h :: h' :: ':' :: m :: m' :: ':' :: s :: s' :: rest =>
    if pairUpTo 23 h h' && pairUpTo 59 m m' && pairUpTo 60 s s' then afterFraction? rest
    else none
  | _ => none

def isOffset : List Char → Bool
  | [] | ['Z'] | ['z'] => true
  | [sign, h, h', ':', m, m'] =>
    (sign = '+' || sign = '-') && pairUpTo 23 h h' && pairUpTo 59 m m'
  | _ => false

/-- A time of day, possibly with an offset. -/
def isTime (cs : List Char) : Bool := (afterTime? cs).any isOffset

def isDatetime (cs : List Char) : Bool :=
  match afterDate? cs with
  | some [] => true
  | some (c :: rest) => (c = 'T' || c = 't') && isTime rest
  | none => afterTime? cs = some []

def ofWord? (cs : List Char) : Option Toml :=
  if cs = "true".toList then some (.boolean true)
  else if cs = "false".toList then some (.boolean false)
  else if isDatetime cs then some .datetime
  else if isFloat cs then some .float
  else (integer? cs).map .integer

/-- Characters that words are made of. -/
def isWordChar (c : Char) : Bool :=
  c.isAlphanum || c = '+' || c = '-' || c = '_' || c = '.' || c = ':'

/-- A word, or a date and a time with a blank between them. -/
def readWord (cs : List Char) : Option (Toml × List Char) :=
  let (word, rest) := cs.span isWordChar
  match afterDate? word, rest with
  | some [], ' ' :: c :: rest =>
    if c.isDigit then
      let (time, rest) := (c :: rest).span isWordChar
      if isTime time then some (.datetime, rest) else none
    else some (.datetime, ' ' :: c :: rest)
  | _, rest => (ofWord? word).map (·, rest)

end StackBackend.Toml
