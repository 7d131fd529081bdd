import StackBackend.Program.Basic

/-! Lexical structure: which names are visible where, and which function a scope
belongs to. Walks go outward along parents. A chain of parents without
repetition is no longer than the scope table, which bounds every walk. -/

namespace StackBackend.Program

/-- Resolves a name outward from a scope. -/
def lookupWithin (p : Program) (name : String) : Nat → ScopeId → Checked (Option DefnId)
  | 0, _ => pure none
  | steps + 1, s => do
    let scope ← p.scopeAt s
    match scope.names.find? name, scope.parent with
    | some d, _ => pure (some d)
    | none, some parent => lookupWithin p name steps parent
    | none, none => pure none

def lookup (p : Program) (s : ScopeId) (name : String) : Checked (Option DefnId) :=
  p.lookupWithin name (p.scopes.size + 1) s

def activationWithin (p : Program) : Nat → ScopeId → Checked ScopeId
  | 0, s => pure s
  | steps + 1, s => do
    let scope ← p.scopeAt s
    match scope.kind, scope.parent with
    | .block, some parent => activationWithin p steps parent
    | _, _ => pure s

/-- The nearest enclosing function, class or global scope. Blocks share the
activation of the function around them. -/
def activationScope (p : Program) (s : ScopeId) : Checked ScopeId :=
  p.activationWithin (p.scopes.size + 1) s

/-- The function whose activation a scope is part of. -/
def scopeFunction (p : Program) (s : ScopeId) : Checked (Option FunctionId) := do
  match (← p.scopeAt (← p.activationScope s)).kind with
  | .function f => pure (some f)
  | _ => pure none

/-- The scope a function is declared in. -/
def declaringScope (p : Program) (f : FunctionId) : Checked (Option ScopeId) := do
  pure (← p.scopeAt (← p.functionAt f).scope).parent

/-- The function that a nested function is declared in. -/
def enclosingFunction (p : Program) (f : FunctionId) : Checked (Option FunctionId) := do
  match ← p.declaringScope f with
  | some parent => p.scopeFunction parent
  | none => pure none

def depthWithin (p : Program) : Nat → Option ScopeId → Checked Nat
  | 0, _ => pure 0
  | _, none => pure 0
  | steps + 1, some s => do pure ((← depthWithin p steps (← p.scopeAt s).parent) + 1)

/-- How many scopes enclose a scope. -/
def scopeDepth (p : Program) (s : ScopeId) : Checked Nat := do
  p.depthWithin (p.scopes.size + 1) (← p.scopeAt s).parent

/-- Every type parameter visible in the body of a function. -/
def scopeTypeParams (p : Program) (f : FunctionId) : Checked (List TypeParamId) := do
  let function ← p.functionAt f
  match function.kind.owner? with
  | some c => pure ((← p.classAt c).typeParams ++ function.typeParams)
  | none => pure function.typeParams

end StackBackend.Program
