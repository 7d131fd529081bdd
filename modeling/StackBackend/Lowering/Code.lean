import StackBackend.Lowering.Site
import StackBackend.Expr.Nodes

/-! Lowering of expressions. An expression lowered for its value leaves exactly
one value on the stack, and one lowered for its effect leaves none.

A handler with a cleanup funnels both of its exits into one copy of it. The normal
exit pushes `null` above the value of the body, the exceptional one pushes a mark
below the exception, so afterwards the top of the stack tells them apart: `null`
resumes, anything else is thrown on. A `return` cannot take that path. It leaves
each enclosing region and runs a copy of each enclosing cleanup itself. -/

namespace StackBackend

/-- What a `return` passes on its way out of the function. -/
structure Region where
  /-- Code of the cleanup, run outside the region. -/
  cleanup : Option (Lower Unit)
  /-- Whether the region is open and has to be closed. -/
  isOpen : Bool

namespace Region

def close : Lower Unit := do
  let next ← Lower.label
  Lower.terminate (.popTry next)
  let _ ← Lower.start next

def leave (r : Region) : Lower Unit := do
  if r.isOpen then close
  r.cleanup.getD (pure ())

/-- Leaves regions, the innermost first. -/
def leaveAll (regions : List Region) : Lower Unit := regions.forM leave

end Region

namespace Site

/-- The part of `&&` and `||` after the left operand. The right operand is needed if
the left one is `needed`, and takes its place then. -/
def shortCircuit (right : Lower Unit) (needed : Bool) : Lower Unit := do
  Lower.emit .dup
  let onRight ← Lower.label
  let join ← Lower.label
  Lower.terminate (if needed then .branchIf onRight join else .branchIf join onRight)
  Lower.startThen onRight do
    Lower.emit .drop
    right
    Lower.branch join
  let _ ← Lower.start join

/-- Two arms that meet. -/
def twoArms (onTrue onFalse : Lower Unit) : Lower Unit := do
  let trueLabel ← Lower.label
  let falseLabel ← Lower.label
  let join ← Lower.label
  Lower.branchIf trueLabel falseLabel
  Lower.startThen trueLabel do
    onTrue
    Lower.branch join
  Lower.startThen falseLabel do
    onFalse
    Lower.branch join
  let _ ← Lower.start join

/-- One arm, which may be passed by. -/
def oneArm (onTrue : Lower Unit) (mode : Mode) : Lower Unit := do
  let trueLabel ← Lower.label
  let join ← Lower.label
  Lower.branchIf trueLabel join
  Lower.startThen trueLabel do
    onTrue
    Lower.branch join
  Lower.startThen join (Lower.unitIfValue mode)

def loop (test body : Lower Unit) (mode : Mode) : Lower Unit := do
  let header ← Lower.label
  let bodyLabel ← Lower.label
  let exit ← Lower.label
  Lower.branch header
  Lower.startThen header do
    test
    Lower.branchIf bodyLabel exit
    Lower.startThen bodyLabel do
      body
      Lower.branch header
    Lower.startThen exit (Lower.unitIfValue mode)

/-- Code in a protected region, which is closed on the way to an exit. What follows
is given that exit and the handler of the region. -/
def protect (body : Lower Unit) (rest : (exit handler : BlockId) → Lower Unit) : Lower Unit := do
  if ← Lower.isReachable then
    let bodyLabel ← Lower.label
    let handler ← Lower.label
    Lower.terminate (.pushTry bodyLabel handler)
    let exit ← Lower.label
    let _ ← Lower.start bodyLabel
    body
    Lower.terminate (.popTry exit)
    rest exit handler

/-- Whether the exception on the stack is of the guarded class. Without a guard
every exception is meant. -/
def testGuard (typeofSlot subtypeSlot : Nat) (guard : Option ClassId) : Lower Unit :=
  Lower.emitAll [.dup, .callVirtual 1 typeofSlot, .allocateArray typeClass 1, .dup,
    .classRef (guard.getD exceptionClass), .call typeConstructor, .drop,
    .callVirtual 2 subtypeSlot]

/-- The exception goes to the clause's variable, or away. -/
def bindException (s : Site) (binding : Option DefnId) : Lower Unit :=
  match binding with
  | some d => do Lower.emit (.storeLocal (← s.slot d))
  | none => Lower.emit .drop

/-- A clause that is tried on the exception that stands at `next`. Returns where
control goes, the exception still on the stack, when the clause does not take it. -/
def clauseCode (s : Site) (typeofSlot subtypeSlot : Nat) (binding : Option DefnId)
    (guard : Option ClassId) (body : Lower Unit) (done next : BlockId) : Lower BlockId := do
  let _ ← Lower.start next
  let matched ← Lower.label
  let other ← Lower.label
  testGuard typeofSlot subtypeSlot guard
  Lower.branchIf matched other
  let _ ← Lower.start matched
  s.bindException binding
  body
  Lower.branch done
  pure other

/-- A handler without cleanup: what no clause takes is thrown on. -/
def handlerEnd (join noMatch : BlockId) : Lower Unit := do
  let joined ← Lower.start join
  Lower.startThen noMatch (Lower.terminate .throw)
  if joined then Lower.resume join

/-- After a cleanup: goes on if the top of the stack is `null`, and throws it on
otherwise. -/
def resumeOrRethrow : Lower Unit := do
  let resume ← Lower.label
  let rethrow ← Lower.label
  Lower.emitAll [.dup, .null, .sameObject]
  Lower.branchIf resume rethrow
  let _ ← Lower.start resume
  Lower.emit .drop
  let _ ← Lower.start rethrow
  Lower.terminate .throw
  Lower.resume resume

/-- The funnel into a cleanup, and what follows it. -/
def cleanupEnd (cleanup : Lower Unit) (normal unwinding : BlockId) : Lower Unit := do
  let cleanupLabel ← Lower.label
  Lower.startThen normal do
    Lower.emit .null
    Lower.branch cleanupLabel
  Lower.startThen unwinding do
    Lower.emitAll [.uninitialized, .swap]
    Lower.branch cleanupLabel
  Lower.startThen cleanupLabel do
    cleanup
    if ← Lower.isReferenced normal then resumeOrRethrow else Lower.terminate .throw

mutual

/-- Lowers an expression inside the given regions, the innermost first. -/
def lower (s : Site) : Expr → List Region → Mode → Lower Unit
  | .literal _ value, _, mode => do
    literal value
    Lower.discard mode
  | .uninitialized _, _, mode => do
    Lower.emit .uninitialized
    Lower.discard mode
  | .self _, _, mode =>
    match s.function.receiver? with
    | none => Lower.stop (.unresolvedDefinition s.function.name "this")
    | some _ => do
      Lower.emit (.loadLocal 0)
      Lower.discard mode
  | .variable _ d, _, mode => do
    s.loadVariable d
    Lower.discard mode
  | .field _ receiver d, regions, mode => do
    s.lower receiver regions .value
    s.loadField d
    Lower.discard mode
  | .assign _ (.variable ty d) value, regions, mode => do
    s.lower value regions .value
    s.coerce value.ty ty
    Lower.dupIfValue mode
    s.storeVariable d
  | .assign _ (.field ty receiver d) value, regions, mode => do
    s.lower receiver regions .value
    s.lower value regions .value
    s.coerce value.ty ty
    s.storeField d mode
  | .assign _ _ _, _, _ => s.fail .badAssignmentTarget
  | .compound _ op (.variable ty d) value, regions, mode => do
    let inst ← s.binaryInst op ty
    s.loadVariable d
    s.lower value regions .value
    Lower.emit inst
    Lower.dupIfValue mode
    s.storeVariable d
  | .compound _ op (.field ty receiver d) value, regions, mode => do
    let inst ← s.binaryInst op ty
    s.lower receiver regions .value
    Lower.emit .dup
    s.loadField d
    s.lower value regions .value
    Lower.emit inst
    s.storeField d mode
  | .compound _ op target _, _, _ => do
    let _ ← s.binaryInst op target.ty
    s.fail .badAssignmentTarget
  | .initField _ receiver d value, regions, mode => do
    s.lower value regions .value
    s.coerce value.ty (← s.program.defnAt d).ty
    s.lower receiver regions .value
    s.initField d
    Lower.unitIfValue mode
  | .binary _ op left right, regions, mode => do
    s.lower left regions .value
    s.lower right regions .value
    Lower.emit (← s.binaryInst op left.ty)
    Lower.discard mode
  | .unary _ op operand, regions, mode => do
    s.lower operand regions .value
    Lower.emit (← s.orFail (op.inst? operand.ty) (.undefinedUnary op operand.ty))
    Lower.discard mode
  | .convert ty operand, regions, mode => do
    s.lower operand regions .value
    Lower.emitAll (← s.orFail (conversion? operand.ty ty) (.noConversion operand.ty ty))
    Lower.discard mode
  | .and _ left right, regions, mode => do
    s.lower left regions .value
    shortCircuit (s.lower right regions .value) true
    Lower.discard mode
  | .or _ left right, regions, mode => do
    s.lower left regions .value
    shortCircuit (s.lower right regions .value) false
    Lower.discard mode
  | .block _ stmts, regions, mode => s.lowerStmts stmts regions mode
  | .cond _ test onTrue none, regions, mode => do
    s.lower test regions .value
    oneArm (s.lower onTrue regions .effect) mode
  | .cond _ test onTrue (some onFalse), regions, mode => do
    s.lower test regions .value
    twoArms (s.lower onTrue regions mode) (s.lower onFalse regions mode)
  | .loop _ test body, regions, mode =>
    loop (s.lower test regions .value) (s.lower body regions .effect) mode
  | .call _ f typeArgs args, regions, mode => do
    s.lowerArgs args regions
    s.emitTys typeArgs
    Lower.emit (.call f)
    Lower.discard mode
  | .invoke _ receiver method typeArgs args, regions, mode => do
    s.lower receiver regions .value
    s.lowerArgs args regions
    s.emitOwnerTys receiver.ty method
    s.emitTys typeArgs
    Lower.emit (← s.dispatch receiver.ty method args.length)
    Lower.discard mode
  | .invokeSelf _ method _ _, _, _ => do
    let name := (← s.program.functionAt method).name
    s.fail (.noExplicitReceiver name)
  | .new ty cls constructor args, regions, mode => do
    let typeArgs := (ty.classTy?.map ClassTy.args).getD []
    s.emitTys typeArgs
    Lower.emit (.allocate cls)
    Lower.dupIfValue mode
    s.lowerArgs args regions
    s.emitTys typeArgs
    Lower.emitAll [.call constructor, .drop]
  | .functionValue _ f, _, _ => do
    let name := (← s.program.functionAt f).name
    s.fail (.noClosureClass name)
  | .throw _ operand, regions, _ => do
    s.lower operand regions .value
    Lower.terminate .throw
  | .ret _ none, regions, _ => do
    Lower.emit .unit
    Region.leaveAll regions
    Lower.terminate .ret
  | .ret _ (some value), regions, _ => do
    s.lower value regions .value
    s.coerce value.ty s.function.returnTy
    Region.leaveAll regions
    Lower.terminate .ret
  | .attempt _ body [] none, regions, mode => s.lower body regions mode
  | .attempt _ body clauses none, regions, mode =>
    protect (s.lower body (⟨none, true⟩ :: regions) mode) fun join handler => do
      let typeofSlot ← s.builtinSlot objectClass typeofMethod
      let subtypeSlot ← s.builtinSlot typeClass isSubtypeOfMethod
      let noMatch ← s.lowerClauses typeofSlot subtypeSlot clauses regions mode join handler
      handlerEnd join noMatch
  | .attempt _ body clauses (some cleanup), regions, mode =>
    let code := s.lower cleanup regions .effect
    protect (s.lower body (⟨some code, true⟩ :: regions) mode) fun normal handler =>
      if clauses.isEmpty then cleanupEnd code normal handler
      else do
        let typeofSlot ← s.builtinSlot objectClass typeofMethod
        let subtypeSlot ← s.builtinSlot typeClass isSubtypeOfMethod
        let noMatch ← s.lowerClauses typeofSlot subtypeSlot clauses
          (⟨some code, false⟩ :: regions) mode normal handler
        cleanupEnd code normal noMatch

def lowerArgs (s : Site) : List Expr → List Region → Lower Unit
  | [], _ => pure ()
  | arg :: rest, regions => do
    s.lower arg regions .value
    s.lowerArgs rest regions

/-- Statements; the value is that of a trailing expression, or unit. -/
def lowerStmts (s : Site) : List Stmt → List Region → Mode → Lower Unit
  | [], _, mode => Lower.unitIfValue mode
  | [.expr e], regions, mode => s.lower e regions mode
  | .expr e :: rest, regions, mode => do
    s.lower e regions .effect
    s.lowerStmts rest regions mode
  | .declare _ none :: rest, regions, mode => s.lowerStmts rest regions mode
  | .declare d (some init) :: rest, regions, mode => do
    s.lower init regions .value
    s.coerce init.ty (← s.program.defnAt d).ty
    Lower.emit (.storeLocal (← s.slot d))
    s.lowerStmts rest regions mode
  | .function _ :: rest, regions, mode => s.lowerStmts rest regions mode

/-- Tries the clauses in turn on the exception that stands at `next`. Returns
where control goes, the exception still on the stack, when no clause takes it. -/
def lowerClauses (s : Site) (typeofSlot subtypeSlot : Nat) :
    List Clause → List Region → Mode → (done next : BlockId) → Lower BlockId
  | [], _, _, _, next => pure next
  | .mk binding guard body :: rest, regions, mode, done, next => do
    let next ← s.clauseCode typeofSlot subtypeSlot binding guard (s.lower body regions mode)
      done next
    s.lowerClauses typeofSlot subtypeSlot rest regions mode done next

end

end Site

end StackBackend
