import StackBackend.Closure.Records

/-! Bodies after closure conversion. Every use of a captured definition goes through
the context that holds it, blocks allocate their contexts on entry, declarations
of nested functions allocate closures, and calls of closures are method calls.

What cannot be converted is left in place and the rest of the body is still
converted; the first failure is what is reported. -/

namespace StackBackend

/-- Where conversion stands in one function. -/
structure ConversionSite where
  program : Program
  plan : ClosurePlan
  function : FunctionId
  /-- The arguments of a chain call run before the function's context exists. -/
  inChain : Bool

/-- Keeps the first failure. -/
abbrev Convert := StateT (Option CompileError) Checked

def Convert.fail (error : CompileError) : Convert Unit :=
  modify fun first => some (first.getD error)

def ContextClass.allocation (c : ContextClass) : Stmt :=
  .declare c.localVar (some (.mkNew c.ty c.constructor []))

/-- The scope whose context holds a definition. A captured parameter is held by the
context of its copy. -/
def ClosurePlan.contextScope? (c : ClosurePlan) (p : Program) (d : DefnId) :
    Checked (Option ScopeId) := do
  match (← p.defnAt ((c.paramFields.find? d).getD d)).kind with
  | .field cls =>
    match (← p.classAt cls).origin with
    | .context s => pure (some s)
    | _ => pure none
  | _ => pure none

namespace ConversionSite

def contextScope? (site : ConversionSite) (d : DefnId) : Checked (Option ScopeId) :=
  site.plan.contextScope? site.program d

def owns (site : ConversionSite) (s : ScopeId) : Checked Bool := do
  pure ((← site.program.scopeFunction s) = some site.function)

def unreachable (site : ConversionSite) (s : ScopeId) (name : String) : Convert Unit := do
  let function ← site.program.functionAt site.function
  Convert.fail (← site.program.unreachableContext function.name s name)

/-- How the function gets at a context, without a check of failure. -/
def contextPath? (site : ConversionSite) (s : ScopeId) : Checked (Option Expr) := do
  if ← site.owns s then
    match site.plan.contexts.find? s with
    | some context => do pure (some (← site.program.load context.localVar))
    | none => pure none
  else
    match site.plan.closures.find? site.function,
        site.plan.contextField? site.function s with
    | some closure, some field => do
      let ty := (← site.program.defnAt field).ty
      pure (some (.field ty (← site.program.load closure.receiver) field))
    | _, _ => pure none

/-- The context of a scope: a local of the function that owns it, a field of the
closure elsewhere. -/
def contextAccess (site : ConversionSite) (s : ScopeId) (name : String) :
    Convert (Option Expr) := do
  match ← site.contextPath? s with
  | some path => pure (some path)
  | none =>
    site.unreachable s name
    pure none

def contextAccesses (site : ConversionSite) (name : String) :
    List ScopeId → Convert (Option (List Expr))
  | [] => pure (some [])
  | s :: rest => do
    match ← site.contextAccess s name with
    | none => pure none
    | some access => do pure ((← site.contextAccesses name rest).map (access :: ·))

def contextMember (site : ConversionSite) (s : ScopeId) (name : String) (ty : Ty)
    (field : DefnId) : Convert (Option Expr) := do
  pure ((← site.contextAccess s name).map (Expr.field ty · field))

/-- What takes the place of a variable, or nothing if it stays. -/
def replacement? (site : ConversionSite) (ty : Ty) (d : DefnId) : Convert (Option Expr) := do
  let defn ← site.program.defnAt d
  match site.plan.paramFields.find? d, ← site.contextScope? d with
  | some field, some s =>
    if site.inChain && (← site.owns s) then pure none
    else site.contextMember s defn.name ty field
  | some _, none => pure none
  | none, some s => site.contextMember s defn.name ty d
  | none, none =>
    if defn.kind = .parameter || defn.kind = .localVar then
      if !(← site.owns defn.scope) then site.unreachable defn.scope defn.name
    pure none

/-- The value of the variable that holds a closure. After a failure it is not
taken to be in reach. -/
def closureValue? (site : ConversionSite) (f : FunctionId) : Convert (Option Expr) := do
  match site.plan.closures.find? f with
  | none => pure none
  | some closure =>
    match ← site.replacement? closure.ty closure.var with
    | some access => pure (some access)
    | none =>
      if (← get).isNone then pure (some (.variable closure.ty closure.var)) else pure none

/-- Whether a block that declares into a scope allocates its context. -/
def opens (site : ConversionSite) (opened : List ScopeId) (s : ScopeId) : Checked Bool := do
  let scope ← site.program.scopeAt s
  pure (scope.kind = .block && site.plan.contexts.contains s && !opened.contains s)

/-- The context that a statement declares into. -/
def declaredInto? (site : ConversionSite) : Stmt → Checked (Option ScopeId)
  | .declare d _ => site.contextScope? d
  | .function f =>
    match site.plan.closures.find? f with
    | some closure => site.contextScope? closure.var
    | none => pure none
  | .expr _ => pure none

/-- The scopes whose contexts a block of these statements allocates. -/
def openedBy (site : ConversionSite) (opened : List ScopeId) (stmts : List Stmt) :
    Checked (List ScopeId) :=
  stmts.foldlM (fun scopes stmt => do
    match ← site.declaredInto? stmt with
    | some s =>
      if (← site.opens opened s) && !scopes.contains s then pure (scopes ++ [s])
      else pure scopes
    | none => pure scopes) []

def allocations (site : ConversionSite) (scopes : List ScopeId) : List Stmt :=
  (scopes.filterMap site.plan.contexts.find?).map ContextClass.allocation

/-- The initial value of a variable that lives in a context is stored there. -/
def declaration (site : ConversionSite) (d : DefnId) (init : Option Expr) :
    Convert (List Stmt) := do
  match ← site.contextScope? d, init with
  | none, init => pure [.declare d init]
  | some _, none => pure []
  | some s, some init => do
    let name := (← site.program.defnAt d).name
    match ← site.contextAccess s name with
    | some context => pure [.expr (.mkInitField context d init)]
    | none => pure []

/-- The declaration of a nested function allocates its closure, if it has one. -/
def closureAllocation (site : ConversionSite) (f : FunctionId) : Convert (List Stmt) := do
  match site.plan.closures.find? f with
  | none => pure []
  | some closure =>
    let needed := (site.plan.captures.needed.find? f).getD []
    let name := (← site.program.functionAt f).name
    match ← site.contextAccesses name needed with
    | none => pure []
    | some args =>
      let value := Expr.mkNew closure.ty closure.constructor args
      match ← site.contextScope? closure.var with
      | none => pure [.declare closure.var (some value)]
      | some s =>
        match ← site.contextAccess s name with
        | some context => pure [.expr (.mkInitField context closure.var value)]
        | none => pure []

/-- A clause variable that lives in a context: the local that takes the exception
and the scope of the context. -/
def captured? (site : ConversionSite) : Option DefnId → Checked (Option (DefnId × DefnId × ScopeId))
  | none => pure none
  | some d =>
    match site.plan.caught.find? d with
    | none => pure none
    | some temp => do pure ((← site.contextScope? d).map fun s => (d, temp, s))

/-- The body of a clause whose variable lives in a context, after the exception is
stored there. -/
def clauseBody (site : ConversionSite) (d temp : DefnId) (s : ScopeId) (allocates : Bool)
    (body : Expr) : Convert Expr := do
  let allocation := if allocates then site.allocations [s] else []
  let name := (← site.program.defnAt d).name
  let store ← match ← site.contextAccess s name with
    | some context => do
      pure [Stmt.expr (.mkInitField context d (← site.program.load temp))]
    | none => pure []
  pure (.block body.ty (allocation ++ store ++ [.expr body]))

mutual

/-- Converts an expression. `opened` are the block scopes whose contexts exist. -/
def convert (site : ConversionSite) : Expr → List ScopeId → Convert Expr
  | .variable ty d, _ => do
    pure ((← site.replacement? ty d).getD (.variable ty d))
  | .functionValue ty f, _ => do
    match site.plan.values.find? f with
    | some value => pure (.mkNew value.ty value.constructor [])
    | none => do
      pure (((← site.closureValue? f).map (Expr.withTy ty)).getD (.functionValue ty f))
  | .block ty stmts, opened => do
    let entered ← site.openedBy opened stmts
    let stmts ← site.convertStmts stmts (opened ++ entered)
    pure (.block ty (site.allocations entered ++ stmts))
  | .attempt ty body clauses none, opened => do
    let body ← site.convert body opened
    pure (.attempt ty body (← site.convertClauses clauses opened) none)
  | .attempt ty body clauses (some cleanup), opened => do
    let body ← site.convert body opened
    let clauses ← site.convertClauses clauses opened
    pure (.attempt ty body clauses (some (← site.convert cleanup opened)))
  | .call ty f typeArgs args, opened => do
    let args ← site.convertArgs args opened
    match site.plan.closures.find? f with
    | none => pure (.call ty f typeArgs args)
    | some closure =>
      match ← site.closureValue? f with
      | some receiver => pure (.invoke ty receiver f (typeArgs.drop closure.inherited) args)
      | none => pure (.call ty f typeArgs args)
  | .literal ty value, _ => pure (.literal ty value)
  | .uninitialized ty, _ => pure (.uninitialized ty)
  | .self ty, _ => pure (.self ty)
  | .field ty receiver d, opened => do pure (.field ty (← site.convert receiver opened) d)
  | .assign ty target value, opened => do
    let target ← site.convert target opened
    pure (.assign ty target (← site.convert value opened))
  | .compound ty op target value, opened => do
    let target ← site.convert target opened
    pure (.compound ty op target (← site.convert value opened))
  | .initField ty receiver d value, opened => do
    let value ← site.convert value opened
    pure (.initField ty (← site.convert receiver opened) d value)
  | .binary ty op left right, opened => do
    let left ← site.convert left opened
    pure (.binary ty op left (← site.convert right opened))
  | .unary ty op operand, opened => do pure (.unary ty op (← site.convert operand opened))
  | .convert ty operand, opened => do pure (.convert ty (← site.convert operand opened))
  | .and ty left right, opened => do
    let left ← site.convert left opened
    pure (.and ty left (← site.convert right opened))
  | .or ty left right, opened => do
    let left ← site.convert left opened
    pure (.or ty left (← site.convert right opened))
  | .cond ty test onTrue none, opened => do
    let test ← site.convert test opened
    pure (.cond ty test (← site.convert onTrue opened) none)
  | .cond ty test onTrue (some onFalse), opened => do
    let test ← site.convert test opened
    let onTrue ← site.convert onTrue opened
    pure (.cond ty test onTrue (some (← site.convert onFalse opened)))
  | .loop ty test body, opened => do
    let test ← site.convert test opened
    pure (.loop ty test (← site.convert body opened))
  | .invoke ty receiver method typeArgs args, opened => do
    let receiver ← site.convert receiver opened
    pure (.invoke ty receiver method typeArgs (← site.convertArgs args opened))
  | .invokeSelf ty method typeArgs args, opened => do
    pure (.invokeSelf ty method typeArgs (← site.convertArgs args opened))
  | .new ty cls constructor args, opened => do
    pure (.new ty cls constructor (← site.convertArgs args opened))
  | .throw ty operand, opened => do pure (.throw ty (← site.convert operand opened))
  | .ret ty none, _ => pure (.ret ty none)
  | .ret ty (some value), opened => do pure (.ret ty (some (← site.convert value opened)))

def convertArgs (site : ConversionSite) : List Expr → List ScopeId → Convert (List Expr)
  | [], _ => pure []
  | arg :: rest, opened => do
    let arg ← site.convert arg opened
    pure (arg :: (← site.convertArgs rest opened))

def convertStmts (site : ConversionSite) : List Stmt → List ScopeId → Convert (List Stmt)
  | [], _ => pure []
  | .expr e :: rest, opened => do
    let e ← site.convert e opened
    pure (.expr e :: (← site.convertStmts rest opened))
  | .declare d none :: rest, opened => do
    let stmts ← site.declaration d none
    pure (stmts ++ (← site.convertStmts rest opened))
  | .declare d (some init) :: rest, opened => do
    let init ← site.convert init opened
    let stmts ← site.declaration d (some init)
    pure (stmts ++ (← site.convertStmts rest opened))
  | .function f :: rest, opened => do
    let stmts ← site.closureAllocation f
    pure (stmts ++ (← site.convertStmts rest opened))

def convertClauses (site : ConversionSite) : List Clause → List ScopeId → Convert (List Clause)
  | [], _ => pure []
  | .mk binding guard body :: rest, opened => do
    let clause ← match ← site.captured? binding with
      | none => do pure (Clause.mk binding guard (← site.convert body opened))
      | some (d, temp, s) => do
        let allocates ← site.opens opened s
        let body ← site.convert body (if allocates then opened ++ [s] else opened)
        pure (Clause.mk (some temp) guard (← site.clauseBody d temp s allocates body))
    pure (clause :: (← site.convertClauses rest opened))

end

/-- Entry into a function: its context is allocated and captured parameters are
copied into it. -/
def prologue (site : ConversionSite) : Checked (Option (List Stmt)) := do
  let function ← site.program.functionAt site.function
  match site.plan.contexts.find? function.scope with
  | none => pure none
  | some context =>
    let copies ← function.params.filterMapM fun param => do
      match site.plan.paramFields.find? param with
      | none => pure none
      | some field => do
        let receiver ← site.program.load context.localVar
        pure (some (Stmt.expr (.mkInitField receiver field (← site.program.load param))))
    pure (some (context.allocation :: copies))

/-- Statements before a body, which keeps its type. -/
def prepend (stmts : List Stmt) : Expr → Expr
  | .block ty rest => .block ty (stmts ++ rest)
  | e => .block e.ty (stmts ++ [.expr e])

def convertBody (site : ConversionSite) (body : Expr) : Convert Expr := do
  let body ← site.convert body []
  match ← site.prologue with
  | some stmts => pure (prepend stmts body)
  | none => pure body

def convertChain (site : ConversionSite) (chain : Chain) : Convert Chain := do
  let args ← { site with inChain := true }.convertArgs chain.call.args []
  pure { chain with call := chain.call.withArgs args }

def convertFunction (site : ConversionSite) (f : FunctionDecl) : Convert FunctionDecl := do
  let body ← f.body.mapM site.convertBody
  let chain ← f.chain.mapM site.convertChain
  pure { f with body, chain }

end ConversionSite

namespace Pass

/-- Converts a function. It is changed even if part of it could not be converted. -/
def convertFunction (plan : ClosurePlan) (f : FunctionId) : Pass Unit := do
  let function ← ask (·.functionAt f)
  let site : ConversionSite := ⟨← get, plan, f, false⟩
  let (converted, failure) ← ask fun _ => (site.convertFunction function).run none
  modifyFunction f fun _ => converted
  match failure with
  | some error => stop error
  | none => pure ()

end Pass

end StackBackend
