import StackBackend.Expr.Nodes
import StackBackend.Expr.Traverse
import StackBackend.Program.Scopes

/-! Implicit receivers made explicit. `this`, fields named on their own and methods
called on their own become uses of the receiver of the nearest enclosing member,
so a nested function that uses one captures that receiver like any variable. -/

namespace StackBackend

/-- The expressions of a function: its body, then the arguments of its chain call. -/
def FunctionDecl.exprs (f : FunctionDecl) : List Expr :=
  f.body.toList ++ (f.chain.map (·.call.args)).getD []

def Chain.mapArgs (f : List Expr → List Expr) (c : Chain) : Chain :=
  { c with call := c.call.withArgs (f c.call.args) }

namespace Program

def receiverWithin (p : Program) : Nat → FunctionId → Checked (Option DefnId)
  | 0, _ => pure none
  | steps + 1, f => do
    match (← p.functionAt f).receiver? with
    | some receiver => pure (some receiver)
    | none =>
      match ← p.enclosingFunction f with
      | some outer => receiverWithin p steps outer
      | none => pure none

/-- The receiver of the innermost member around a function, itself included. -/
def receiverInScope (p : Program) (f : FunctionId) : Checked (Option DefnId) :=
  p.receiverWithin (p.functions.size + 1) f

def isField (p : Program) (d : DefnId) : Bool :=
  match p.definitions[d.index]? with
  | some defn => match defn.kind with
    | .field _ => true
    | _ => false
  | none => false

def implicitUse? (p : Program) : Node → Checked (Option String)
  | .expr (.self _) => pure (some "this")
  | .expr (.variable _ d) => do
    let defn ← p.defnAt d
    pure (if p.isField d then some defn.name else none)
  | .expr (.invokeSelf _ method _ _) => do pure (some (← p.functionAt method).name)
  | _ => pure none

def implicitUses (p : Program) (es : List Expr) : Checked (List String) :=
  (es.flatMap Expr.nodes).filterMapM p.implicitUse?

/-- A node that used the implicit receiver uses the given one. -/
def explicitNode (p : Program) (receiver : Expr) : Expr → Expr
  | .self ty => receiver.withTy ty
  | .variable ty d => if p.isField d then .field ty receiver d else .variable ty d
  | .invokeSelf ty method typeArgs args => .invoke ty receiver method typeArgs args
  | e => e

def explicitReceiver (p : Program) (receiver e : Expr) : Expr :=
  e.mapNodes (p.explicitNode receiver)

end Program

namespace Pass

/-- A function that uses the implicit receiver where there is none stays as it is. -/
def resolveReceiver (f : FunctionId) : Pass Unit := do
  let receiver ← ask (·.receiverInScope f)
  let function ← ask (·.functionAt f)
  let uses ← ask (·.implicitUses function.exprs)
  match uses, receiver with
  | [], _ => pure ()
  | name :: _, none => stop (.unresolvedDefinition function.name name)
  | _ :: _, some d =>
    let load ← ask (·.load d)
    let explicit := (← get).explicitReceiver load
    modifyFunction f fun function =>
      { function with
        body := function.body.map explicit
        chain := function.chain.map (·.mapArgs (List.map explicit)) }

def resolveReceivers : Pass Unit := do
  (List.range (← get).functions.size).forM fun i => resolveReceiver ⟨i⟩

end Pass

end StackBackend
