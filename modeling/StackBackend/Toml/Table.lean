/-! TOML documents as trees, and the rules on which line may add to which table. -/

namespace StackBackend

/-- How a table came to be, which decides what may still be added to it. -/
inductive TableForm where
  /-- Written in braces; complete. -/
  | inline
  /-- Opened by its own header. -/
  | header
  /-- Named on the way to a longer header, which leaves its own header open. -/
  | implied
  /-- Made by a dotted key. -/
  | dotted
deriving DecidableEq, Repr

inductive Toml where
  | boolean (value : Bool)
  | integer (value : Int)
  | float
  | datetime
  | string (value : String)
  | array (items : List Toml)
  | table (form : TableForm) (entries : List (String × Toml))
  /-- An array of tables with headers. -/
  | tables (items : List (List (String × Toml)))

namespace Toml

abbrev Entries := List (String × Toml)

def replaceEntry (key : String) (value : Toml) (entries : Entries) : Entries :=
  entries.map fun entry => if entry.1 = key then (key, value) else entry

/-- Changes the table at the end of a path and makes the tables on the way that are
missing. The last table of an array of tables stands for the array. Dotted keys do
not reach into tables that have a header. -/
def descend (dotted : Bool) (change : TableForm → Entries → Option (TableForm × Entries)) :
    List String → TableForm → Entries → Option (TableForm × Entries)
  | [], form, entries => change form entries
  | key :: rest, form, entries =>
    match entries.lookup key with
    | none => do
      let made := if dotted then .dotted else .implied
      let (f, es) ← descend dotted change rest made []
      pure (form, entries ++ [(key, .table f es)])
    | some (.table f es) =>
      if f = .inline || dotted && f = .header then none
      else do
        let (f, es) ← descend dotted change rest f es
        pure (form, replaceEntry key (.table f es) entries)
    | some (.tables items) => do
      let (_, es) ← descend dotted change rest .header (← items.getLast?)
      pure (form, replaceEntry key (.tables (items.dropLast ++ [es])) entries)
    | some _ => none

/-- Adds a value under a key that is not there yet. The table at the end of a dotted
path has to be one that dotted keys made. -/
def addEntry (path : List String) (key : String) (value : Toml) :
    TableForm → Entries → Option (TableForm × Entries) :=
  descend true (fun form entries =>
    if (form = .dotted) = path.isEmpty || (entries.lookup key).isSome then none
    else some (form, entries ++ [(key, value)])) path

/-- The header of a table that has none yet. -/
def openTable (key : String) (form : TableForm) (entries : Entries) :
    Option (TableForm × Entries) :=
  match entries.lookup key with
  | none => some (form, entries ++ [(key, .table .header [])])
  | some (.table .implied es) => some (form, replaceEntry key (.table .header es) entries)
  | some _ => none

/-- The header of one more table of an array. -/
def openNext (key : String) (form : TableForm) (entries : Entries) :
    Option (TableForm × Entries) :=
  match entries.lookup key with
  | none => some (form, entries ++ [(key, .tables [[]])])
  | some (.tables items) => some (form, replaceEntry key (.tables (items ++ [[]])) entries)
  | some _ => none

/-- A table in braces. -/
def ofPairs? (pairs : List (List String × String × Toml)) : Option Toml := do
  let (_, entries) ← pairs.foldlM (fun (form, entries) (path, key, value) =>
    addEntry path key value form entries) (TableForm.inline, [])
  pure (.table .inline entries)

/-- A document, and the table that lines now add to. -/
structure Document where
  entries : Entries
  current : List String

namespace Document

def empty : Document := ⟨[], []⟩

def addPair (d : Document) (path : List String) (key : String) (value : Toml) :
    Option Document := do
  let (_, entries) ← descend false (addEntry path key value) d.current .header d.entries
  pure { d with entries }

/-- Opens a table, or one more table of an array, by its path. -/
def openPath (d : Document) (array : Bool) (path : List String) (key : String) :
    Option Document := do
  let change := if array then openNext key else openTable key
  let (_, entries) ← descend false change path .header d.entries
  pure ⟨entries, path ++ [key]⟩

end Document

end Toml

end StackBackend
