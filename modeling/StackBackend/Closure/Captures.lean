import StackBackend.Expr.Nodes
import StackBackend.Program.Scopes
import StackBackend.RefSet

/-! Capture analysis: which definitions of enclosing scopes each function uses,
which functions need a closure object, and which contexts each closure holds on
to. Contexts belong to scopes: a function body, or a block with definitions that
nested functions use.

A function that needs a context becomes a closure, and a use of a closure needs
the context of the scope it is declared in. The set of closures therefore grows
until nothing changes, which takes at most one round per nested function. -/

namespace StackBackend

structure Uses where
  /-- Parameters and locals. -/
  defns : List DefnId
  calls : List FunctionId
  values : List FunctionId

def Uses.functions (u : Uses) : List FunctionId := u.calls ++ u.values

def Node.called? : Node → Option FunctionId
  | .expr (.call _ f _ _) => some f
  | _ => none

def Node.value? : Node → Option FunctionId
  | .expr (.functionValue _ f) => some f
  | _ => none

def Node.caught? : Node → Option DefnId
  | .clause c => c.binding
  | _ => none

def Program.usedVariable? (p : Program) : Node → Checked (Option DefnId)
  | .expr (.variable _ d) => do
    match (← p.defnAt d).kind with
    | .parameter | .localVar => pure (some d)
    | _ => pure none
  | _ => pure none

def Program.usesOf (p : Program) (body : Expr) : Checked Uses := do
  let defns ← body.nodes.filterMapM p.usedVariable?
  pure ⟨defns, body.nodes.filterMap Node.called?, body.nodes.filterMap Node.value?⟩

/-- What the bodies of a program use, and how its functions are nested. -/
structure Usage where
  uses : RefMap .functions Uses
  /-- Enclosing function of every nested function that has a body. -/
  parents : RefMap .functions FunctionId
  caught : RefSet .definitions

namespace Usage

def empty : Usage := ⟨.empty, .empty, .empty⟩

def addFunction (p : Program) (usage : Usage) (f : FunctionDecl) : Checked Usage := do
  match f.body with
  | none => pure usage
  | some body =>
    let uses := usage.uses.insert f.id (← p.usesOf body)
    let caught := usage.caught.insertAll (body.nodes.filterMap Node.caught?)
    match ← p.enclosingFunction f.id with
    | some parent => pure ⟨uses, usage.parents.insert f.id parent, caught⟩
    | none => pure ⟨uses, usage.parents, caught⟩

def ofProgram (p : Program) : Checked Usage := p.functions.toList.foldlM (addFunction p) empty

def valueUses (u : Usage) : List FunctionId := u.uses.entries.flatMap (·.2.values)

end Usage

/-- The enclosing functions of a function, the nearest first. -/
def ancestors (parents : RefMap .functions FunctionId) : Nat → FunctionId → List FunctionId
  | 0, _ => []
  | steps + 1, f =>
    match parents.find? f with
    | some parent => parent :: ancestors parents steps parent
    | none => []

namespace Usage

/-- Nesting is no deeper than there are nested functions. -/
def ancestorsOf (u : Usage) (f : FunctionId) : List FunctionId :=
  ancestors u.parents (u.parents.entries.length + 1) f

def depthOf (u : Usage) (f : FunctionId) : Nat := (u.ancestorsOf f).length

/-- Functions with bodies, the deepest first, so that children precede parents. -/
def innermostFirst (u : Usage) : List FunctionId :=
  u.uses.keys.mergeSort fun f g => u.depthOf g ≤ u.depthOf f

end Usage

namespace Program

/-- The home scope of a variable of another function than `f`. -/
def foreignHome? (p : Program) (f : FunctionId) (d : DefnId) :
    Checked (Option (ScopeId × FunctionId)) := do
  let home := (← p.defnAt d).scope
  match ← p.scopeFunction home with
  | some owner => pure (if owner = f then none else some (home, owner))
  | none => pure none

/-- The scope that declares a closure which is nested in another function than `f`. -/
def foreignClosure? (p : Program) (u : Usage) (closures : RefSet .functions)
    (f g : FunctionId) : Checked (Option (ScopeId × FunctionId)) := do
  if closures.contains g then
    match u.parents.find? g, ← p.declaringScope g with
    | some parent, some home => pure (if parent = f then none else some (home, parent))
    | _, _ => pure none
  else pure none

/-- A scope may be used if its owner encloses the function. -/
def requireEnclosing (p : Program) (u : Usage) (f : FunctionId) (name : Checked String)
    (use : Option (ScopeId × FunctionId)) : Checked (Option ScopeId) := do
  match use with
  | none => pure none
  | some (home, owner) =>
    if owner ∈ u.ancestorsOf f then pure (some home)
    else reject (.unresolvedDefinition (← p.functionAt f).name (← name))

def directNeeds (p : Program) (u : Usage) (closures : RefSet .functions) (f : FunctionId)
    (uses : Uses) : Checked (List ScopeId) := do
  let forVariables ← uses.defns.filterMapM fun d => do
    p.requireEnclosing u f (do pure (← p.defnAt d).name) (← p.foreignHome? f d)
  let forClosures ← uses.functions.filterMapM fun g => do
    p.requireEnclosing u f (do pure (← p.functionAt g).name) (← p.foreignClosure? u closures f g)
  pure (forVariables ++ forClosures)

/-- What a nested function needs from outside `f`. -/
def passedOn (p : Program) (f : FunctionId) (needs : RefSet .scopes) : Checked (List ScopeId) :=
  needs.toList.filterM fun s => do pure ((← p.scopeFunction s) ≠ some f)

def nestedNeeds (p : Program) (u : Usage) (needed : RefMap .functions (RefSet .scopes))
    (f : FunctionId) : Checked (List ScopeId) := do
  let children := (u.parents.entries.filter (·.2 = f)).filterMap fun (g, _) => needed.find? g
  pure (← children.mapM (p.passedOn f)).flatten

/-- The contexts of enclosing functions that each function reaches into, itself or
through a function nested in it. -/
def neededContexts (p : Program) (u : Usage) (closures : RefSet .functions) :
    Checked (RefMap .functions (RefSet .scopes)) :=
  u.innermostFirst.foldlM (fun needed f => do
    let uses := (u.uses.find? f).getD ⟨[], [], []⟩
    let direct ← p.directNeeds u closures f uses
    let nested ← p.nestedNeeds u needed f
    pure (needed.insert f (.ofList (direct ++ nested)))) .empty

/-- Nested functions that need a context are closures. -/
def withNeedy (u : Usage) (needed : RefMap .functions (RefSet .scopes))
    (closures : RefSet .functions) : RefSet .functions :=
  closures.insertAll ((needed.entries.filter fun (f, scopes) =>
    !scopes.toList.isEmpty && u.parents.contains f).map Prod.fst)

/-- Adds closures until their needs add no more. -/
def saturate (p : Program) (u : Usage) :
    Nat → RefSet .functions → Checked (RefSet .functions × RefMap .functions (RefSet .scopes))
  | 0, closures => do pure (closures, ← p.neededContexts u closures)
  | rounds + 1, closures => do
    let needed ← p.neededContexts u closures
    let grown := withNeedy u needed closures
    if grown = closures then pure (closures, needed) else p.saturate u rounds grown

end Program

/-- What of a scope is stored in its context. -/
structure CapturedItems where
  defns : RefSet .definitions
  /-- Functions declared there whose closures are used from elsewhere. -/
  closures : RefSet .functions

def CapturedItems.empty : CapturedItems := ⟨.empty, .empty⟩

abbrev CapturedScopes := RefMap .scopes CapturedItems

namespace CapturedScopes

def itemsOf (c : CapturedScopes) (s : ScopeId) : CapturedItems := (c.find? s).getD .empty

def addVariable (c : CapturedScopes) (s : ScopeId) (d : DefnId) : CapturedScopes :=
  let items := c.itemsOf s
  c.insert s { items with defns := items.defns.insert d }

def addClosure (c : CapturedScopes) (s : ScopeId) (f : FunctionId) : CapturedScopes :=
  let items := c.itemsOf s
  c.insert s { items with closures := items.closures.insert f }

end CapturedScopes

structure Captures where
  captured : CapturedScopes
  closures : RefSet .functions
  values : RefSet .functions
  /-- Scopes whose contexts a closure holds, the outermost first. -/
  needed : RefMap .functions (List ScopeId)
  caught : RefSet .definitions
  parents : RefMap .functions FunctionId

namespace Program

def isTopLevel (p : Program) (f : FunctionId) : Checked Bool := do
  pure ((← p.functionAt f).kind = .global)

def capturedBy (p : Program) (u : Usage) (closures : RefSet .functions)
    (captured : CapturedScopes) (entry : FunctionId × Uses) : Checked CapturedScopes := do
  let (f, uses) := entry
  let captured ← uses.defns.foldlM (fun captured d => do
    match ← p.foreignHome? f d with
    | some (home, _) => pure (captured.addVariable home d)
    | none => pure captured) captured
  uses.functions.foldlM (fun captured g => do
    match ← p.foreignClosure? u closures f g with
    | some (home, _) => pure (captured.addClosure home g)
    | none => pure captured) captured

/-- Scopes by depth, and by position within one depth. The depth of a scope that is
on its own is not asked for. -/
def outermostFirst (p : Program) (scopes : RefSet .scopes) : Checked (List ScopeId) := do
  match scopes.toList with
  | [] => pure []
  | [s] => pure [s]
  | ss =>
    let withDepth ← ss.mapM fun s => do pure (s, ← p.scopeDepth s)
    pure ((withDepth.mergeSort fun a b => a.2 ≤ b.2).map Prod.fst)

def capturesOf (p : Program) (u : Usage) : Checked Captures := do
  let (nested, outer) := u.valueUses.partition u.parents.contains
  let values ← outer.filterM p.isTopLevel
  let (closures, needed) ← p.saturate u u.parents.entries.length (.ofList nested)
  let captured ← u.uses.entries.foldlM (p.capturedBy u closures) .empty
  let needed ← closures.toList.mapM fun f => do
    pure (f, ← p.outermostFirst ((needed.find? f).getD .empty))
  pure ⟨captured, closures, .ofList values, ⟨needed⟩, u.caught, u.parents⟩

def captures (p : Program) : Checked Captures := do
  p.capturesOf (← Usage.ofProgram p)

end Program

end StackBackend
