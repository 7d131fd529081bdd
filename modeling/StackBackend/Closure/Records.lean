import StackBackend.Closure.Captures
import StackBackend.Program.Build

/-! The classes that closure conversion adds. A context class holds what one
activation of a scope shares with nested functions. A closure class has the
converted function as its only method and a field for each context the function
needs. A function at the top level that is used as a value gets a closure class
whose method forwards to it. -/

namespace StackBackend

structure ContextClass where
  constructor : FunctionId
  /-- The local that holds the context. -/
  localVar : DefnId
  ty : Ty

structure ClosureClass where
  constructor : FunctionId
  /-- The variable, or context field, that holds the closure. -/
  var : DefnId
  receiver : DefnId
  ty : Ty
  /-- How many leading type parameters the class now supplies. -/
  inherited : Nat

structure ValueClass where
  constructor : FunctionId
  ty : Ty

/-- Where everything captured is found. -/
structure ClosurePlan where
  captures : Captures
  contexts : RefMap .scopes ContextClass
  closures : RefMap .functions ClosureClass
  values : RefMap .functions ValueClass
  /-- Captured parameters, and the context fields with their copies. -/
  paramFields : RefMap .definitions DefnId
  /-- Captured closures, and the context fields that hold them. -/
  closureFields : RefMap .functions DefnId
  /-- Closure and scope, and the closure field with the context of that scope. -/
  contextFields : List ((FunctionId × ScopeId) × DefnId)
  /-- Captured variables of clauses, and the locals that take the exception. -/
  caught : RefMap .definitions DefnId

namespace ClosurePlan

def ofCaptures (c : Captures) : ClosurePlan :=
  ⟨c, .empty, .empty, .empty, .empty, .empty, [], .empty⟩

def contextField? (c : ClosurePlan) (f : FunctionId) (s : ScopeId) : Option DefnId :=
  c.contextFields.lookup (f, s)

end ClosurePlan

def contextLocalName : String := "$context"

/-- Closures number their contexts from the outermost one on. -/
def contextFieldName (position : Nat) : String :=
  if position = 0 then contextLocalName else contextLocalName ++ toString position

def contextClassName (function : String) (block : Option Nat) : String :=
  function ++ "$context" ++ (block.map toString).getD ""

def closureClassName (function : String) : String := function ++ "$closure"

namespace Program

/-- The scope as diagnostics name it. -/
def scopeLabel (p : Program) (s : ScopeId) : Checked String := do
  let function ← match ← p.scopeFunction s with
    | some f => do pure (← p.functionAt f).name
    | none => pure "<global>"
  match (← p.scopeAt s).kind with
  | .block => pure (function ++ " (" ++ s.text ++ ")")
  | _ => pure function

def unreachableContext (p : Program) (function : String) (s : ScopeId) (name : String) :
    Checked CompileError := do
  pure (.unreachableContext function (← p.scopeLabel s) name)

end Program

/-- A class that has a name and nothing else. Fields of contexts hold closures and
fields of closures hold contexts, so all classes exist before any has members. -/
structure ContextShell where
  scope : ScopeId
  owner : FunctionId
  isBlock : Bool
  cls : ClassId

structure ClosureShell where
  function : FunctionId
  cls : ClassId
  inherited : Nat

namespace Pass

def stopUnreachable {α : Type} (function : String) (s : ScopeId) (name : String) : Pass α := do
  stop (← ask (·.unreachableContext function s name))

def addRecordClass (name : String) (origin : ClassOrigin) : Pass ClassId :=
  pushClass name (some ⟨objectClass, [], false⟩) origin

/-- Gives a class the type parameters that are in scope in a function. How many
there are is returned. -/
def shareTypeParams (c : ClassId) (f : FunctionId) : Pass Nat := do
  let typeParams ← ask (·.scopeTypeParams f)
  modifyClass c fun cls => { cls with typeParams }
  pure typeParams.length

/-- The contexts of the blocks of one function are numbered from 1. -/
def addContextShell (shells : List ContextShell) (s : ScopeId) : Pass (List ContextShell) := do
  match ← ask (·.scopeFunction s) with
  | none => stopUnreachable "<global>" s contextLocalName
  | some owner =>
    let function ← ask (·.functionAt owner)
    let isBlock := (← ask (·.scopeAt s)).kind = .block
    let number := (shells.filter fun shell => shell.owner = owner && shell.isBlock).length + 1
    let name := contextClassName function.name (if isBlock then some number else none)
    let cls ← addRecordClass name (.context s)
    let _ ← shareTypeParams cls owner
    pure (shells ++ [⟨s, owner, isBlock, cls⟩])

def addClosureShell (captures : Captures) (f : FunctionId) : Pass ClosureShell := do
  let function ← ask (·.functionAt f)
  match captures.parents.find? f with
  | none => stopUnreachable function.name function.scope function.name
  | some parent =>
    let cls ← addRecordClass (closureClassName function.name) (.closure f)
    pure ⟨f, cls, ← shareTypeParams cls parent⟩

def addPlainConstructor (c : ClassId) : Pass FunctionId := do
  let f ← addConstructor c
  setBody f (.mkBlock [])
  pure f

def relocate (d : DefnId) (c : ClassId) : Pass Unit := do
  let scope := (← ask (·.classAt c)).scope
  let name := (← ask (·.defnAt d)).name
  modifyDefn d fun defn => { defn with kind := .field c, scope }
  modifyScope scope fun s => { s with names := s.names.insert name d }
  modifyClass c fun cls => { cls with fields := cls.fields ++ [⟨d, none⟩] }

/-- A parameter is copied into its context and a local moves there. A variable that
a clause binds moves too, and a new local takes the exception first. -/
def captureVariable (shell : ContextShell) (plan : ClosurePlan) (d : DefnId) :
    Pass ClosurePlan := do
  let defn ← ask (·.defnAt d)
  if defn.kind = .parameter then
    let field ← addField shell.cls defn.name defn.ty defn.isMutable none
    pure { plan with paramFields := plan.paramFields.insert d field }
  else if plan.captures.caught.contains d then
    let temp ← addDefinition defn.name .localVar defn.ty false shell.scope
    relocate d shell.cls
    pure { plan with caught := plan.caught.insert d temp }
  else
    relocate d shell.cls
    pure plan

def captureClosure (closures : List ClosureShell) (shell : ContextShell) (plan : ClosurePlan)
    (f : FunctionId) : Pass ClosurePlan := do
  let name := (← ask (·.functionAt f)).name
  match closures.find? (·.function = f) with
  | none =>
    let owner := (← ask (·.functionAt shell.owner)).name
    stopUnreachable owner shell.scope name
  | some closure =>
    let ty ← ask (·.thisTy closure.cls)
    let field ← addField shell.cls name ty false none
    pure { plan with closureFields := plan.closureFields.insert f field }

def fillContext (closures : List ClosureShell) (plan : ClosurePlan) (shell : ContextShell) :
    Pass ClosurePlan := do
  let ty ← ask (·.thisTy shell.cls)
  let localVar ← addDefinition contextLocalName .localVar ty false shell.scope
  let items := plan.captures.captured.itemsOf shell.scope
  let plan ← items.defns.toList.foldlM (captureVariable shell) plan
  let plan ← items.closures.toList.foldlM (captureClosure closures shell) plan
  let constructor ← addPlainConstructor shell.cls
  pure { plan with contexts := plan.contexts.insert shell.scope ⟨constructor, localVar, ty⟩ }

/-- Adds a field for a context, and the constructor parameter stored into it. -/
def addContextField (shell : ClosureShell) (constructor : FunctionId) (plan : ClosurePlan)
    (position : Nat) (s : ScopeId) : Pass ClosurePlan := do
  let name := contextFieldName position
  match plan.contexts.find? s with
  | none =>
    let function := (← ask (·.functionAt shell.function)).name
    stopUnreachable function s name
  | some context =>
    let field ← addField shell.cls name context.ty false none
    let param ← addParam constructor name context.ty false
    modifyFunction constructor fun f =>
      { f with chain := f.chain.map fun c =>
          { c with fieldParams := c.fieldParams ++ [(param, field)] } }
    pure { plan with contextFields := plan.contextFields ++ [((shell.function, s), field)] }

def addContextFields (shell : ClosureShell) (constructor : FunctionId) :
    Nat → List ScopeId → ClosurePlan → Pass ClosurePlan
  | _, [], plan => pure plan
  | position, s :: rest, plan => do
    let plan ← addContextField shell constructor plan position s
    addContextFields shell constructor (position + 1) rest plan

/-- The variable that holds a closure: a field of a context if it is captured,
otherwise a new local where the function is declared. -/
def closureVariable (plan : ClosurePlan) (f : FunctionId) (ty : Ty) : Pass DefnId := do
  match plan.closureFields.find? f with
  | some field => pure field
  | none =>
    let function ← ask (·.functionAt f)
    match ← ask (·.declaringScope f) with
    | none => stopUnreachable function.name function.scope function.name
    | some home => addDefinition function.name .localVar ty false home

/-- The function becomes a method. The type parameters it shares with the function
around it are now those of its class. -/
def becomeMethod (shell : ClosureShell) (receiver : DefnId) : Pass Unit := do
  modifyFunction shell.function fun f =>
    { f with
      kind := .method shell.cls
      params := receiver :: f.params
      typeParams := f.typeParams.drop shell.inherited }
  modifyClass shell.cls fun c => { c with methods := c.methods ++ [shell.function] }

def fillClosure (plan : ClosurePlan) (shell : ClosureShell) : Pass ClosurePlan := do
  let ty ← ask (·.thisTy shell.cls)
  let needed := (plan.captures.needed.find? shell.function).getD []
  let constructor ← addConstructor shell.cls
  let scope := (← ask (·.functionAt shell.function)).scope
  let plan ← addContextFields shell constructor 0 needed plan
  setBody constructor (.mkBlock [])
  let var ← closureVariable plan shell.function ty
  let receiver ← addDefinition receiverName .parameter ty false scope
  becomeMethod shell receiver
  let closure := ⟨constructor, var, receiver, ty, shell.inherited⟩
  pure { plan with closures := plan.closures.insert shell.function closure }

def copyParam (method : FunctionId) (param : DefnId) : Pass Expr := do
  let defn ← ask (·.defnAt param)
  let copy ← addParam method defn.name defn.ty false
  ask (·.load copy)

/-- A class whose method passes everything on to the function. -/
def addValueClass (plan : ClosurePlan) (f : FunctionId) : Pass ClosurePlan := do
  let function ← ask (·.functionAt f)
  let cls ← addRecordClass (closureClassName function.name) (.closure f)
  let ty ← ask (·.thisTy cls)
  let constructor ← addPlainConstructor cls
  let method ← addMethod cls function.name function.returnTy
  modifyFunction method fun m => { m with typeParams := function.typeParams }
  let args ← function.params.mapM (copyParam method)
  setBody method (.call function.returnTy f (function.typeParams.map Ty.variable) args)
  pure { plan with values := plan.values.insert f ⟨constructor, ty⟩ }

def addRecords (captures : Captures) : Pass ClosurePlan := do
  let contexts ← captures.captured.keys.foldlM addContextShell []
  let closures ← captures.closures.toList.mapM (addClosureShell captures)
  let plan ← contexts.foldlM (fillContext closures) (.ofCaptures captures)
  let plan ← closures.foldlM fillClosure plan
  captures.values.toList.foldlM addValueClass plan

end Pass

end StackBackend
