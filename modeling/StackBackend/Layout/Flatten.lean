import StackBackend.Layout.Order

/-! Flattening: a class starts from the tables of its superclass, adds what its
interfaces declare and then its own members. A method takes over the slot of an
inherited one with its name, so a slot means the same name in every subclass. -/

namespace StackBackend

namespace Program

def fieldNamed? (p : Program) (name : String) : List FieldSlot → Checked (Option FieldSlot)
  | [] => pure none
  | slot :: rest => do
    if (← p.defnAt slot.defn).name = name then pure (some slot) else fieldNamed? p name rest

/-- Adds a field that `owner` declares. An interface met twice contributes its
fields once; two different fields may not share a name. -/
def addFieldSlot (p : Program) (c : ClassId) (owner : String) (layout : ClassLayout)
    (defn : DefnId) : Checked ClassLayout := do
  let field ← p.defnAt defn
  match ← p.fieldNamed? field.name layout.fields with
  | none =>
    -- A field of the bottom type can never be read; it is stored as a pointer.
    let storage := field.ty.storage.getD .pointer
    pure { layout with fields := layout.fields ++ [⟨defn, storage⟩] }
  | some existing =>
    if existing.defn = defn then pure layout
    else
      let holder := match (← p.defnAt existing.defn).kind with
        | .field declaring => declaring
        | _ => c
      let first := (← p.classAt holder).name
      reject (.conflictingField (← p.classAt c).name field.name first owner)

def methodNamed? (p : Program) (name : String) : List MethodSlot → Checked (Option Nat)
  | [] => pure none
  | slot :: rest => do
    if (← p.functionAt slot.function).name = name then pure (some 0)
    else pure ((← methodNamed? p name rest).map (· + 1))

/-- Whether parameters from the second on agree once the inherited ones are read
in the subclass. -/
def sameParams (p : Program) (params : List TypeParamId) (args : List Ty) :
    List (DefnId × DefnId) → Checked Bool
  | [] => pure true
  | (old, new) :: rest => do
    let oldTy := (← p.defnAt old).ty.substitute params args
    if oldTy = (← p.defnAt new).ty then sameParams p params args rest else pure false

/-- Whether `method` may stand where `c` inherits `inherited`: as many parameters
of either sort, the same parameter types, and a result that is a subtype. Types
of the inherited method are read with the type arguments `c` gives its owner, and
method type parameters correspond by position. -/
def isCompatibleOverride (p : Program) (c : ClassId) (inherited method : FunctionId) :
    Checked Bool := do
  let old ← p.functionAt inherited
  let new ← p.functionAt method
  if old.params.length ≠ new.params.length ∨ old.typeParams.length ≠ new.typeParams.length then
    pure false
  else
    let (params, args) ← match old.kind.owner? with
      | some owner => do
        let args ← p.instantiateSupertype (← p.thisClassTy c) owner
        pure ((← p.classAt owner).typeParams, args.getD [])
      | none => pure ([], [])
    let params := params ++ old.typeParams
    let args := args ++ new.typeParams.map Ty.variable
    if ← p.sameParams params args ((old.params.zip new.params).drop 1) then
      p.isSubtype new.returnTy (old.returnTy.substitute params args)
    else pure false

def addMethodSlot (p : Program) (c : ClassId) (layout : ClassLayout) (method : FunctionId) :
    Checked ClassLayout := do
  let function ← p.functionAt method
  let entry : MethodSlot := ⟨method, function.returnTy.storage⟩
  match ← p.methodNamed? function.name layout.methods with
  | none => pure { layout with methods := layout.methods ++ [entry] }
  | some slot =>
    let inherited := (layout.methods[slot]?.map MethodSlot.function).getD method
    let compatible ←
      if inherited = method then pure true else p.isCompatibleOverride c inherited method
    if compatible then pure { layout with methods := layout.methods.set slot entry }
    else reject (.incompatibleOverride (← p.classAt c).name function.name)

/-- What an interface contributes; not what it inherits itself. -/
def addInterface (p : Program) (c : ClassId) (layout : ClassLayout) (iface : ClassId) :
    Checked ClassLayout := do
  let source ← p.classAt iface
  let layout ← (source.fields.map FieldDecl.defn).foldlM (p.addFieldSlot c source.name) layout
  source.methods.foldlM (p.addMethodSlot c) layout

/-- A class declares each method name once. -/
def addOwnMethods (p : Program) (cls : ClassDecl) (c : ClassId) :
    List String → ClassLayout → List FunctionId → Checked ClassLayout
  | _, layout, [] => pure layout
  | seen, layout, method :: rest => do
    let name := (← p.functionAt method).name
    if name ∈ seen then reject (.duplicateMethod cls.name name)
    else
      let layout ← p.addMethodSlot c layout method
      addOwnMethods p cls c (name :: seen) layout rest

/-- The tables a class starts from. -/
def inheritedLayout (p : Program) (cls : ClassDecl) : Checked ClassLayout :=
  match cls.supertype with
  | none => pure .empty
  | some st => do
    let base ← p.classAt st.cls
    match base.layout with
    | some layout => pure layout
    | none => reject (.layoutNotFinalized base.name)

def flattenClass (p : Program) (c : ClassId) : Checked ClassLayout := do
  let cls ← p.classAt c
  let layout ← p.inheritedLayout cls
  let layout ← cls.interfaces.foldlM (p.addInterface c) layout
  let layout ← (cls.fields.map FieldDecl.defn).foldlM (p.addFieldSlot c cls.name) layout
  p.addOwnMethods cls c [] layout cls.methods

end Program

namespace Pass

def flattenClass (c : ClassId) : Pass Unit := do
  let layout ← ask (·.flattenClass c)
  modifyClass c fun cls => { cls with layout := some layout }

def flattenClasses : Pass Unit := do
  let order ← ask Program.inheritanceOrder
  order.forM flattenClass

end Pass

end StackBackend
