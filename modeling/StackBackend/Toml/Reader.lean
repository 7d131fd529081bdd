import StackBackend.Toml.Scalar
import StackBackend.Toml.Text

/-! Reading TOML documents line by line. Values are nested, and keys are dotted, to
a limited depth. -/

namespace StackBackend.Toml

/-- How deeply values may be nested, and how many parts a key may have. -/
def nestingLimit : Nat := 79

def skipBlanks (cs : List Char) : List Char := cs.dropWhile isBlankChar

/-- Skips blanks, line ends and comments between the items of an array. -/
def skipFiller : (inComment : Bool) → List Char → List Char
  | _, [] => []
  | inComment, c :: rest =>
    if endsLine c rest then skipFiller false rest
    else if inComment then (if isTextChar c then skipFiller true rest else c :: rest)
    else if isBlankChar c then skipFiller false rest
    else if c = '#' then skipFiller true rest
    else c :: rest

def isBareKeyChar (c : Char) : Bool := c.isAlphanum || c = '_' || c = '-'

def readKeyPart (cs : List Char) : Option (String × List Char) :=
  match readLineText cs with
  | some result => some result
  | none =>
    let (part, rest) := cs.span isBareKeyChar
    if part.isEmpty then none else some (String.ofList part, rest)

/-- The parts of a dotted key, as many as there may be. -/
def readKey : (parts : Nat) → List Char → Option (List String × List Char)
  | 0, _ => none
  | parts + 1, cs => do
    let (part, rest) ← readKeyPart (skipBlanks cs)
    match skipBlanks rest with
    | '.' :: rest => do
      let (more, rest) ← readKey parts rest
      pure (part :: more, rest)
    | rest => pure ([part], rest)

/-- The path of a key and its last part. -/
def splitKey (parts : List String) : Option (List String × String) :=
  parts.getLast?.map (parts.dropLast, ·)

abbrev ReadValue := List Char → Option (Toml × List Char)

/-- A key, an equals sign and a value. -/
def readPair (readValue : ReadValue) (cs : List Char) :
    Option ((List String × String × Toml) × List Char) := do
  let (parts, rest) ← readKey nestingLimit cs
  let (path, key) ← splitKey parts
  match rest with
  | '=' :: rest => do
    let (value, rest) ← readValue (skipBlanks rest)
    pure ((path, key, value), rest)
  | _ => none

/-- The items of an array after its bracket or a comma. Each takes a character. -/
def readItems (readValue : ReadValue) : Nat → List Char → Option (List Toml × List Char)
  | 0, _ => none
  | steps + 1, cs =>
    match skipFiller false cs with
    | ']' :: rest => some ([], rest)
    | cs => do
      let (item, rest) ← readValue cs
      match skipFiller false rest with
      | ',' :: rest => do
        let (items, rest) ← readItems readValue steps rest
        pure (item :: items, rest)
      | ']' :: rest => pure ([item], rest)
      | _ => none

/-- The pairs of a table in braces. No comma follows the last one. -/
def readPairs (readValue : ReadValue) :
    Nat → List Char → Option (List (List String × String × Toml) × List Char)
  | 0, _ => none
  | steps + 1, cs => do
    let (pair, rest) ← readPair readValue cs
    match skipBlanks rest with
    | ',' :: rest => do
      let (pairs, rest) ← readPairs readValue steps rest
      pure (pair :: pairs, rest)
    | '\x7d' :: rest => pure ([pair], rest)
    | _ => none

def readInline (readValue : ReadValue) (cs : List Char) : Option (Toml × List Char) := do
  match skipBlanks cs with
  | '\x7d' :: rest => pure (.table .inline [], rest)
  | cs => do
    let (pairs, rest) ← readPairs readValue cs.length cs
    pure (← ofPairs? pairs, rest)

def readPlain (cs : List Char) : Option (Toml × List Char) :=
  match readText cs with
  | some (text, rest) => some (.string text, rest)
  | none => readWord cs

def readValue : (depth : Nat) → List Char → Option (Toml × List Char)
  | depth + 1, '[' :: rest => do
    let (items, rest) ← readItems (readValue depth) (rest.length + 1) rest
    pure (.array items, rest)
  | depth + 1, '\x7b' :: rest => readInline (readValue depth) rest
  | _, cs => readPlain cs

/-- The header of a table, after its brackets. -/
def readHeader (d : Document) (array : Bool) (cs : List Char) :
    Option (Document × List Char) := do
  let (parts, rest) ← readKey nestingLimit cs
  let (path, key) ← splitKey parts
  let close := if array then [']', ']'] else [']']
  if close.isPrefixOf rest then
    pure (← d.openPath array path key, rest.drop close.length)
  else none

/-- What a line says, up to a comment or its end. -/
def readContent (d : Document) (cs : List Char) : Option (Document × List Char) :=
  match cs with
  | [] => some (d, [])
  | '[' :: '[' :: rest => readHeader d true rest
  | '[' :: rest => readHeader d false rest
  | c :: rest =>
    if c = '#' || endsLine c rest then some (d, c :: rest)
    else do
      let ((path, key, value), rest) ← readPair (readValue nestingLimit) (c :: rest)
      pure (← d.addPair path key value, rest)

def skipComment (cs : List Char) : List Char :=
  match cs with
  | '#' :: rest => rest.dropWhile isTextChar
  | cs => cs

/-- Reads lines until the text ends. Each takes a character. -/
def readLines : Nat → Document → List Char → Option Document
  | 0, _, _ => none
  | steps + 1, d, cs => do
    let (d, rest) ← readContent d (skipBlanks cs)
    match skipComment (skipBlanks rest) with
    | [] => pure d
    | '\n' :: rest | '\r' :: '\n' :: rest => readLines steps d rest
    | _ => none

/-- The entries of a document. A byte order mark may come first. -/
def parse? (text : String) : Option Entries :=
  let cs := match text.toList with
    | '\ufeff' :: rest => rest
    | cs => cs
  (readLines (cs.length + 1) .empty cs).map Document.entries

end StackBackend.Toml
