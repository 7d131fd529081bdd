import StackBackend.Program.Builtins

/-! Members the source leaves implicit: an initializer for every declared class, a
constructor for every declared class without one, and the function that
initializes the globals. Initial values may contain nested functions, so this
comes before closures are converted. -/

namespace StackBackend

/-- The store an initializer makes for a field: its initial value, or the "not
yet assigned" mark in a pointer field. Other fields are left zeroed. -/
def fieldStore (p : Program) (thisTy : Ty) (field : FieldDecl) : Checked (Option Stmt) := do
  let defn ← p.defnAt field.defn
  let store := fun value => some (.expr (.mkInitField (.self thisTy) field.defn value))
  match field.init with
  | some value => pure (store value)
  | none => pure (if defn.ty.isObject then store (.uninitialized defn.ty) else none)

def fieldStores (p : Program) (thisTy : Ty) (fields : List FieldDecl) : Checked (List Stmt) := do
  pure ((← fields.mapM (fieldStore p thisTy)).filterMap id)

/-- The store that gives a global its initial value. -/
def globalStore (p : Program) (g : GlobalDecl) : Checked (Option Stmt) :=
  match g.init with
  | some value => do pure (some (.expr (.mkAssign (← p.load g.defn) value)))
  | none => pure none

def globalStores (p : Program) : Checked (List Stmt) := do
  pure ((← p.globals.toList.mapM (globalStore p)).filterMap id)

namespace Pass

def initializerName : String := "$initializer"

def globalInitName : String := "$init"

def addInitializer (c : ClassId) : Pass Unit := do
  let scope := (← ask (·.classAt c)).scope
  let id ← pushFunction initializerName (.initializer c) scope .unit
  let thisTy ← ask (·.thisTy c)
  let fields := (← ask (·.classAt c)).fields
  let stores ← ask (fieldStores · thisTy fields)
  setBody id (.mkBlock stores)
  modifyClass c fun cls => { cls with initializer := some id }

def addMissingMembers (c : ClassId) : Pass Unit := do
  if (← ask (·.classAt c)).initializer.isNone then addInitializer c
  if (← ask (·.classAt c)).constructors.isEmpty then
    let id ← addConstructor c
    setBody id (.mkBlock [])

/-- The stores are statements; the function itself yields unit. -/
def addGlobalInit : Pass Unit := do
  let stores ← ask globalStores
  let id ← addFunction globalInitName .unit
  setBody id (.mkBlock (if stores.isEmpty then [] else stores ++ [.expr .unitValue]))
  modify fun p => { p with initFunction := some id }

def synthesizeMembers : Pass Unit := do
  let declared := ((← get).classes.filter (·.origin = .declared)).map ClassDecl.id
  declared.toList.forM addMissingMembers
  if (← get).initFunction.isNone then addGlobalInit

end Pass

end StackBackend
