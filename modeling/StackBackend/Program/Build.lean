import StackBackend.Program.Scopes
import StackBackend.Program.Hierarchy

/-! Building programs. A new entry gets the position after the last one, so
references handed out earlier stay right. -/

namespace StackBackend.Pass

def addScope (parent : Option ScopeId) (kind : ScopeKind) : Pass ScopeId :=
  modifyGet fun p =>
    let id : ScopeId := ⟨p.scopes.size⟩
    (id, { p with scopes := p.scopes.push ⟨id, parent, kind, .empty⟩ })

/-- A definition is visible under its name in the scope it belongs to. -/
def addDefinition (name : String) (kind : DefnKind) (ty : Ty) (isMutable : Bool)
    (scope : ScopeId) : Pass DefnId := do
  let id ← modifyGet fun p =>
    let id : DefnId := ⟨p.definitions.size⟩
    (id, { p with definitions := p.definitions.push ⟨id, name, kind, ty, isMutable, scope⟩ })
  modifyScope scope fun s => { s with names := s.names.insert name id }
  pure id

def addTypeParam (name : String) : Pass TypeParamId :=
  modifyGet fun p =>
    let id : TypeParamId := ⟨p.typeParams.size⟩
    (id, { p with typeParams := p.typeParams.push ⟨id, name⟩ })

def pushClass (name : String) (supertype : Option ClassTy) (origin : ClassOrigin) :
    Pass ClassId := do
  let id : ClassId := ⟨(← get).classes.size⟩
  let scope ← addScope (some Program.globalScope) (.ofClass id)
  let cls : ClassDecl :=
    { id, name, supertype, interfaces := [], typeParams := [], scope, fields := [],
      methods := [], constructors := [], initializer := none, origin, isFinal := false,
      layout := none }
  modify fun p => { p with classes := p.classes.push cls }
  pure id

/-- A class directly below the root. -/
def addClass (name : String) : Pass ClassId :=
  pushClass name (some ⟨objectClass, [], false⟩) .declared

def addSubclass (name : String) (supertype : ClassTy) : Pass ClassId :=
  pushClass name (some supertype) .declared

def addClassTypeParam (c : ClassId) (name : String) : Pass TypeParamId := do
  let id ← addTypeParam name
  modifyClass c fun cls => { cls with typeParams := cls.typeParams ++ [id] }
  pure id

def addField (c : ClassId) (name : String) (ty : Ty) (isMutable : Bool) (init : Option Expr) :
    Pass DefnId := do
  let scope := (← ask (·.classAt c)).scope
  let defn ← addDefinition name (.field c) ty isMutable scope
  modifyClass c fun cls => { cls with fields := cls.fields ++ [⟨defn, init⟩] }
  pure defn

/-- The name under which a receiver is visible. -/
def receiverName : String := "$this"

/-- A function in its own scope. Members of a class start with their receiver. -/
def pushFunction (name : String) (kind : FunctionKind) (parent : ScopeId) (returnTy : Ty) :
    Pass FunctionId := do
  let id : FunctionId := ⟨(← get).functions.size⟩
  let scope ← addScope (some parent) (.function id)
  let function : FunctionDecl :=
    { id, name, kind, scope, returnTy, typeParams := [], params := [], body := none,
      chain := none, isBuiltin := false, isFinal := false, lowered := none }
  modify fun p => { p with functions := p.functions.push function }
  match kind.owner? with
  | none => pure ()
  | some c =>
    let ty ← ask (·.thisTy c)
    let receiver ← addDefinition receiverName .parameter ty false scope
    modifyFunction id fun f => { f with params := f.params ++ [receiver] }
  pure id

def addFunction (name : String) (returnTy : Ty) : Pass FunctionId :=
  pushFunction name .global Program.globalScope returnTy

/-- A function inside the body of another, whose type parameters it inherits. -/
def addNestedFunction (parent : FunctionId) (name : String) (returnTy : Ty) :
    Pass FunctionId := do
  let scope := (← ask (·.functionAt parent)).scope
  let inherited ← ask (·.scopeTypeParams parent)
  let id ← pushFunction name .global scope returnTy
  modifyFunction id fun f => { f with typeParams := inherited }
  pure id

def addMethod (c : ClassId) (name : String) (returnTy : Ty) : Pass FunctionId := do
  let scope := (← ask (·.classAt c)).scope
  let id ← pushFunction name (.method c) scope returnTy
  modifyClass c fun cls => { cls with methods := cls.methods ++ [id] }
  pure id

def constructorName : String := "$constructor"

def addConstructor (c : ClassId) : Pass FunctionId := do
  let scope := (← ask (·.classAt c)).scope
  let id ← pushFunction constructorName (.constructor c) scope .unit
  modifyFunction id fun f => { f with chain := some .initial }
  modifyClass c fun cls => { cls with constructors := cls.constructors ++ [id] }
  pure id

def addFunctionTypeParam (f : FunctionId) (name : String) : Pass TypeParamId := do
  let id ← addTypeParam name
  modifyFunction f fun function => { function with typeParams := function.typeParams ++ [id] }
  pure id

def addParam (f : FunctionId) (name : String) (ty : Ty) (isMutable : Bool) : Pass DefnId := do
  let scope := (← ask (·.functionAt f)).scope
  let defn ← addDefinition name .parameter ty isMutable scope
  modifyFunction f fun function => { function with params := function.params ++ [defn] }
  pure defn

def addLocal (f : FunctionId) (name : String) (ty : Ty) (isMutable : Bool) : Pass DefnId := do
  let scope := (← ask (·.functionAt f)).scope
  addDefinition name .localVar ty isMutable scope

def addBlockScope (parent : ScopeId) : Pass ScopeId := addScope (some parent) .block

def addBlockLocal (scope : ScopeId) (name : String) (ty : Ty) (isMutable : Bool) :
    Pass DefnId :=
  addDefinition name .localVar ty isMutable scope

def addGlobal (name : String) (ty : Ty) (isMutable : Bool) (init : Option Expr) :
    Pass DefnId := do
  let index := (← get).globals.size
  let defn ← addDefinition name (.global index) ty isMutable Program.globalScope
  modify fun p => { p with globals := p.globals.push ⟨defn, init⟩ }
  pure defn

def setBody (f : FunctionId) (body : Expr) : Pass Unit :=
  modifyFunction f fun function => { function with body := some body }

def setChain (f : FunctionId) (chain : Chain) : Pass Unit :=
  modifyFunction f fun function => { function with chain := some chain }

end StackBackend.Pass
