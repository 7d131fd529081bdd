import StackBackend.Ty

/-! Flattened classes: every field and method a class has, inherited ones first,
at its final position. -/

namespace StackBackend

structure FieldSlot where
  defn : DefnId
  storage : Storage
deriving DecidableEq, Repr

structure MethodSlot where
  function : FunctionId
  /-- Storage of the result; a method that never returns has none. -/
  storage : Option Storage
deriving DecidableEq, Repr

structure ClassLayout where
  fields : List FieldSlot
  methods : List MethodSlot
deriving DecidableEq, Repr

namespace ClassLayout

def empty : ClassLayout := ⟨[], []⟩

def fieldIndex? (l : ClassLayout) (defn : DefnId) : Option Nat :=
  l.fields.findIdx? (·.defn = defn)

def field? (l : ClassLayout) (defn : DefnId) : Option FieldSlot :=
  l.fields.find? (·.defn = defn)

def methodSlot? (l : ClassLayout) (function : FunctionId) : Option Nat :=
  l.methods.findIdx? (·.function = function)

end ClassLayout

end StackBackend
