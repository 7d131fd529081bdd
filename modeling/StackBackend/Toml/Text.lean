import StackBackend.Json.Token

/-! Strings of TOML: with escapes between double quotes and as they stand between
single quotes, on one line or, after three quotes, on several. -/

namespace StackBackend.Toml

def doubleQuote : Char := '"'

def singleQuote : Char := '\x27'

/-- Characters that may stand in text and comments on one line. -/
def isTextChar (c : Char) : Bool := c = '\t' || ' ' ≤ c && c ≠ '\x7f'

def isBlankChar (c : Char) : Bool := c = ' ' || c = '\t'

/-- A carriage return counts only as part of a line end. -/
def endsLine (c : Char) (rest : List Char) : Bool :=
  c = '\n' || c = '\r' && rest.head? = some '\n'

/-- The end of a text on several lines: three quotes, before which up to two more
belong to the text. -/
def closing? (quote : Char) (cs : List Char) : Option (List Char × List Char) :=
  let quotes := min (cs.takeWhile (· = quote)).length 5
  if 3 ≤ quotes then some (List.replicate (quotes - 3) quote, cs.drop quotes) else none

def escape? (c : Char) : Option Char :=
  match c with
  | 'b' => some '\x08'
  | 't' => some '\t'
  | 'n' => some '\n'
  | 'f' => some '\x0c'
  | 'r' => some '\r'
  | '"' => some '"'
  | '\\' => some '\\'
  | _ => none

def character? (code : Nat) : Option Char :=
  if h : code.isValidChar then some (Char.ofNatAux code h) else none

inductive TextMode where
  | plain
  | escape
  /-- Digits of a code point: the value so far and how many are missing. -/
  | code (value missing : Nat)
  /-- After a backslash that has to end its line. -/
  | lineEnd
  /-- Blanks and line ends after such a line, which are dropped. -/
  | trimming

/-- Text up to its closing quotes. What was read is kept in reverse. -/
def readEscaped (lines : Bool) :
    TextMode → List Char → List Char → Option (String × List Char)
  | _, _, [] => none
  | .code value missing, read, c :: rest =>
    match Json.hexValue? c with
    | none => none
    | some digit =>
      let value := value * 16 + digit
      if missing ≤ 1 then
        match character? value with
        | some c => readEscaped lines .plain (c :: read) rest
        | none => none
      else readEscaped lines (.code value (missing - 1)) read rest
  | .escape, read, c :: rest =>
    if c = 'u' then readEscaped lines (.code 0 4) read rest
    else if c = 'U' then readEscaped lines (.code 0 8) read rest
    else if lines && endsLine c rest then readEscaped lines .trimming read rest
    else if lines && isBlankChar c then readEscaped lines .lineEnd read rest
    else match escape? c with
      | some c => readEscaped lines .plain (c :: read) rest
      | none => none
  | .lineEnd, read, c :: rest =>
    if endsLine c rest then readEscaped lines .trimming read rest
    else if isBlankChar c then readEscaped lines .lineEnd read rest
    else none
  | .plain, read, c :: rest =>
    match if lines then closing? doubleQuote (c :: rest) else none with
    | some (quotes, rest) => some (String.ofList (quotes ++ read).reverse, rest)
    | none =>
      if c = '\\' then readEscaped lines .escape read rest
      else if c = doubleQuote && !lines then some (String.ofList read.reverse, rest)
      else if isTextChar c || lines && endsLine c rest then
        readEscaped lines .plain (c :: read) rest
      else none
  | .trimming, read, c :: rest =>
    if isBlankChar c || endsLine c rest then readEscaped lines .trimming read rest
    else match closing? doubleQuote (c :: rest) with
      | some (quotes, rest) => some (String.ofList (quotes ++ read).reverse, rest)
      | none =>
        if c = '\\' then readEscaped lines .escape read rest
        else if isTextChar c then readEscaped lines .plain (c :: read) rest
        else none

def readLiteral (lines : Bool) : List Char → List Char → Option (String × List Char)
  | _, [] => none
  | read, c :: rest =>
    match if lines then closing? singleQuote (c :: rest) else none with
    | some (quotes, rest) => some (String.ofList (quotes ++ read).reverse, rest)
    | none =>
      if c = singleQuote && !lines then some (String.ofList read.reverse, rest)
      else if isTextChar c || lines && endsLine c rest then readLiteral lines (c :: read) rest
      else none

/-- A line end right after the opening quotes is not part of the text. -/
def dropLineEnd : List Char → List Char
  | '\n' :: rest | '\r' :: '\n' :: rest => rest
  | cs => cs

/-- Text on one line, from its quote on. -/
def readLineText : List Char → Option (String × List Char)
  | [] => none
  | c :: rest =>
    if c = doubleQuote then readEscaped false .plain [] rest
    else if c = singleQuote then readLiteral false [] rest
    else none

/-- Text from its quotes on. -/
def readText (cs : List Char) : Option (String × List Char) :=
  if cs.take 3 = List.replicate 3 doubleQuote then
    readEscaped true .plain [] (dropLineEnd (cs.drop 3))
  else if cs.take 3 = List.replicate 3 singleQuote then
    readLiteral true [] (dropLineEnd (cs.drop 3))
  else readLineText cs

end StackBackend.Toml
