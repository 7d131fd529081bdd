import StackBackend.Error
import StackBackend.Expr.Build
import StackBackend.Layout
import StackBackend.Program.Names

/-! The program being lowered: flat tables whose entries refer to each other by
position. The stages only append entries or annotate the ones that are there. -/

namespace StackBackend

inductive ScopeKind where
  | global
  | ofClass (cls : ClassId)
  | function (f : FunctionId)
  | block
deriving DecidableEq, Repr

structure Scope where
  id : ScopeId
  parent : Option ScopeId
  kind : ScopeKind
  names : NameTable

inductive DefnKind where
  | parameter
  | localVar
  | field (cls : ClassId)
  | global (index : Nat)
deriving DecidableEq, Repr

structure Definition where
  id : DefnId
  name : String
  kind : DefnKind
  ty : Ty
  isMutable : Bool
  scope : ScopeId

structure FieldDecl where
  defn : DefnId
  init : Option Expr

inductive ClassOrigin where
  | declared
  | builtin
  /-- Holds what one activation of a scope shares with nested functions. -/
  | context (scope : ScopeId)
  /-- Holds the contexts a function needs when it is a value. -/
  | closure (function : FunctionId)
deriving DecidableEq, Repr

structure ClassDecl where
  id : ClassId
  name : String
  supertype : Option ClassTy
  /-- Mixed in after the superclass and before the class's own members. -/
  interfaces : List ClassId
  typeParams : List TypeParamId
  scope : ScopeId
  fields : List FieldDecl
  methods : List FunctionId
  constructors : List FunctionId
  initializer : Option FunctionId
  origin : ClassOrigin
  isFinal : Bool
  layout : Option ClassLayout

inductive FunctionKind where
  | global
  | method (cls : ClassId)
  | constructor (cls : ClassId)
  | initializer (cls : ClassId)
deriving DecidableEq, Repr

def FunctionKind.owner? : FunctionKind → Option ClassId
  | .global => none
  | .method c | .constructor c | .initializer c => some c

/-- The call a constructor makes before its body runs. -/
inductive ChainCall where
  /-- The constructor of the superclass that takes no arguments. -/
  | implicit
  | super (constructor : FunctionId) (args : List Expr)
  /-- Another constructor of the same class. -/
  | sibling (constructor : FunctionId) (args : List Expr)

def ChainCall.args : ChainCall → List Expr
  | .implicit => []
  | .super _ args | .sibling _ args => args

def ChainCall.withArgs (args : List Expr) : ChainCall → ChainCall
  | .implicit => .implicit
  | .super constructor _ => .super constructor args
  | .sibling constructor _ => .sibling constructor args

structure Chain where
  call : ChainCall
  /-- Parameters stored straight into fields: parameter, then field. -/
  fieldParams : List (DefnId × DefnId)

def Chain.initial : Chain := ⟨.implicit, []⟩

structure FunctionDecl where
  id : FunctionId
  name : String
  kind : FunctionKind
  scope : ScopeId
  returnTy : Ty
  /-- A nested function lists those of the enclosing one first. -/
  typeParams : List TypeParamId
  /-- The receiver comes first in members of a class. -/
  params : List DefnId
  body : Option Expr
  chain : Option Chain
  isBuiltin : Bool
  isFinal : Bool
  lowered : Option Body

def FunctionDecl.receiver? (f : FunctionDecl) : Option DefnId :=
  f.kind.owner?.bind fun _ => f.params.head?

structure GlobalDecl where
  defn : DefnId
  init : Option Expr

structure TypeParameter where
  id : TypeParamId
  name : String
deriving DecidableEq, Repr

structure Program where
  scopes : Array Scope
  definitions : Array Definition
  classes : Array ClassDecl
  functions : Array FunctionDecl
  typeParams : Array TypeParameter
  globals : Array GlobalDecl
  /-- The pool of string literals, filled when code is generated. -/
  strings : Array String
  /-- The function that initializes the globals. -/
  initFunction : Option FunctionId

/-- The entry a reference stands for. -/
def entryAt {α : Type} (table : Table) (entries : Array α) (index : Nat) : Checked α :=
  match entries[index]? with
  | some entry => .ok entry
  | none => .error (.dangling table index)

namespace Program

def empty : Program := ⟨#[], #[], #[], #[], #[], #[], #[], none⟩

def globalScope : ScopeId := ⟨0⟩

def scopeAt (p : Program) (s : ScopeId) : Checked Scope := entryAt .scopes p.scopes s.index

def defnAt (p : Program) (d : DefnId) : Checked Definition :=
  entryAt .definitions p.definitions d.index

def classAt (p : Program) (c : ClassId) : Checked ClassDecl := entryAt .classes p.classes c.index

def functionAt (p : Program) (f : FunctionId) : Checked FunctionDecl :=
  entryAt .functions p.functions f.index

def typeParamAt (p : Program) (t : TypeParamId) : Checked TypeParameter :=
  entryAt .typeParams p.typeParams t.index

def findClass? (p : Program) (name : String) : Option ClassId :=
  (p.classes.find? (·.name = name)).map ClassDecl.id

def findFunction? (p : Program) (name : String) : Option FunctionId :=
  (p.functions.find? (·.name = name)).map FunctionDecl.id

/-- A use of a definition, at its declared type. -/
def load (p : Program) (d : DefnId) : Checked Expr := do
  pure (.variable (← p.defnAt d).ty d)

end Program

/-- A stage over a program. What it changed before it was stopped stays changed. -/
abbrev Pass := EStateM Fault Program

instance {σ : Type} : MonadLift Checked (EStateM Fault σ) where
  monadLift x := fun s => match x with
    | .ok a => .ok a s
    | .error e => .error e s

namespace Pass

/-- A question to the program as it is now. -/
def ask {α : Type} (query : Program → Checked α) : Pass α := do query (← get)

def stop {α : Type} (error : CompileError) : Pass α := throw (.rejected error)

def modifyClass (c : ClassId) (f : ClassDecl → ClassDecl) : Pass Unit := do
  let _ ← ask (·.classAt c)
  modify fun p => { p with classes := p.classes.modify c.index f }

def modifyFunction (f : FunctionId) (change : FunctionDecl → FunctionDecl) : Pass Unit := do
  let _ ← ask (·.functionAt f)
  modify fun p => { p with functions := p.functions.modify f.index change }

def modifyDefn (d : DefnId) (change : Definition → Definition) : Pass Unit := do
  let _ ← ask (·.defnAt d)
  modify fun p => { p with definitions := p.definitions.modify d.index change }

def modifyScope (s : ScopeId) (change : Scope → Scope) : Pass Unit := do
  let _ ← ask (·.scopeAt s)
  modify fun p => { p with scopes := p.scopes.modify s.index change }

end Pass

end StackBackend
