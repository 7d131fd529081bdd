/-! References into the tables of a program. A reference is the position of an
entry, tagged by the table it points into, so a class can never be looked up
among the functions. -/

namespace StackBackend

/-- The tables of a program, and the block list of a lowered body. -/
inductive Table where
  | scopes
  | definitions
  | classes
  | functions
  | typeParams
  | blocks
deriving DecidableEq, Repr

/-- Short name that marks a reference in diagnostics. -/
def Table.tag : Table → String
  | .scopes => "scope"
  | .definitions => "defn"
  | .classes => "class"
  | .functions => "fn"
  | .typeParams => "T"
  | .blocks => "bb"

structure Ref (table : Table) where
  index : Nat
deriving DecidableEq, Repr, Hashable

instance {table : Table} : LawfulBEq (Ref table) := inferInstance

abbrev ScopeId := Ref .scopes
abbrev DefnId := Ref .definitions
abbrev ClassId := Ref .classes
abbrev FunctionId := Ref .functions
abbrev TypeParamId := Ref .typeParams
abbrev BlockId := Ref .blocks

namespace Ref

def text {table : Table} (r : Ref table) : String := table.tag ++ toString r.index

theorem ext_index {table : Table} {a b : Ref table} (h : a.index = b.index) : a = b := by
  cases a; cases b; cases h; rfl

end Ref

end StackBackend
