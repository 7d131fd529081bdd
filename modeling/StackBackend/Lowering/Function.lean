import StackBackend.Lowering.Code
import StackBackend.Options

/-! Lowering of whole functions. Parameters have slots from 0 upwards, the receiver
first, and locals from -1 downwards in order of declaration. Dead code still gets
its locals, but never its blocks. -/

namespace StackBackend

/-- Each element once, where it comes first. -/
def firstOccurrences {α : Type} [DecidableEq α] (xs : List α) : List α :=
  xs.foldl (fun seen x => if x ∈ seen then seen else seen ++ [x]) []

/-- The locals a function declares, those in its chain call first. -/
def FunctionDecl.declaredLocals (f : FunctionDecl) : List DefnId :=
  let chainArgs := (f.chain.map (·.call.args)).getD []
  firstOccurrences (chainArgs.flatMap Expr.declaredLocals ++
    (f.body.map Expr.declaredLocals).getD [])

def paramSlot (position : Nat) : Int := position

def localSlot (position : Nat) : Int := -(position : Int) - 1

/-- Gives definitions slots by position. -/
def assignSlots (p : Program) (slotOf : Nat → Int) : Nat → List DefnId → Checked (List LocalSlot)
  | _, [] => pure []
  | position, d :: rest => do
    let defn ← p.defnAt d
    let slots ← assignSlots p slotOf (position + 1) rest
    pure (⟨d, defn.name, defn.ty, slotOf position⟩ :: slots)

/-- The constructor that takes nothing but the receiver. -/
def Program.defaultConstructor (p : Program) (c : ClassId) : Checked FunctionId := do
  let cls ← p.classAt c
  let takesNothing (f : FunctionId) : Checked Bool := do
    pure ((← p.functionAt f).params.length == 1)
  match ← cls.constructors.findM? takesNothing with
  | some f => pure f
  | none => reject (.missingDefaultConstructor cls.name)

namespace Site

/-- The type parameters of a class, passed on as arguments. -/
def emitTypeParams (params : List TypeParamId) : Lower Unit :=
  Lower.emitAll (params.map Inst.typeVar)

/-- A call on the receiver whose result is dropped. -/
def callOnReceiver (f : FunctionId) (operands : Lower Unit) : Lower Unit := do
  Lower.emit (.loadLocal 0)
  operands
  Lower.emitAll [.call f, .drop]

def storeParam (s : Site) (param field : DefnId) : Lower Unit := do
  Lower.emit (.loadLocal (← s.slot param))
  Lower.emit (.loadLocal 0)
  s.initField field

/-- What follows the call of a superclass constructor: parameters that are fields,
then the initializers of the class. -/
def ownInitialization (s : Site) (cls : ClassDecl) (fieldParams : List (DefnId × DefnId)) :
    Lower Unit := do
  fieldParams.forM fun (param, field) => s.storeParam param field
  match cls.initializer with
  | some f => callOnReceiver f (emitTypeParams cls.typeParams)
  | none => pure ()

/-- What a constructor does before its body. A sibling constructor has already
initialized the object. -/
def lowerChain (s : Site) (c : ClassId) : Lower Unit := do
  let cls ← s.program.classAt c
  let chain := s.function.chain.getD .initial
  match chain.call with
  | .implicit =>
    match cls.supertype with
    | some ty => do
      let f ← s.program.defaultConstructor ty.cls
      callOnReceiver f (s.emitTys ty.args)
    | none => pure ()
    s.ownInitialization cls chain.fieldParams
  | .super f args =>
    callOnReceiver f do
      s.lowerArgs args []
      s.emitTys ((cls.supertype.map ClassTy.args).getD [])
    s.ownInitialization cls chain.fieldParams
  | .sibling f args =>
    callOnReceiver f do
      s.lowerArgs args []
      emitTypeParams cls.typeParams

def lowerConstructor (s : Site) (c : ClassId) : Lower Unit := do
  s.lowerChain c
  match s.function.body with
  | some body => s.lower body [] .effect
  | none => pure ()
  Lower.emit .unit
  Lower.terminate .ret

def lowerEntry (s : Site) : Lower Unit :=
  match s.function.kind, s.function.body with
  | .constructor c, _ => s.lowerConstructor c
  | _, none => s.fail .noBody
  | _, some body => do
    s.lower body [] .value
    s.coerce body.ty s.function.returnTy
    Lower.terminate .ret

end Site

/-- Lowers a function, with the string pool before and after. -/
def lowerFunction (p : Program) (options : CompileOptions) (f : FunctionDecl)
    (strings : Array String) : Checked (Body × Array String) := do
  let params ← assignSlots p paramSlot 0 f.params
  let declared := f.declaredLocals
  if options.maxLocals < declared.length then
    reject (.tooManyLocals f.name options.maxLocals)
  let locals ← assignSlots p localSlot 0 declared
  let ((), state) ← (Site.lowerEntry ⟨p, f, params ++ locals⟩).run ⟨.initial, strings⟩
  match state.draft.finish f.name with
  | .ok blocks => pure (⟨params, locals, blocks⟩, state.strings)
  | .error e => reject e

/-- Whether a function has code of its own. -/
def FunctionDecl.isLowerable (f : FunctionDecl) : Bool :=
  !f.isBuiltin && (f.body.isSome || f.chain.isSome)

/-- Lowers functions in turn, with one string pool for all. -/
def lowerFunctions (p : Program) (options : CompileOptions) :
    List FunctionDecl → Array String → Checked (List (FunctionId × Body) × Array String)
  | [], strings => pure ([], strings)
  | f :: rest, strings => do
    let (body, strings) ← lowerFunction p options f strings
    let (bodies, strings) ← lowerFunctions p options rest strings
    pure ((f.id, body) :: bodies, strings)

namespace Pass

/-- Stops unless every class has its layout. -/
def requireLayouts : Pass Unit := do
  match (← get).classes.find? (·.layout.isNone) with
  | some cls => stop (.layoutNotFinalized cls.name)
  | none => pure ()

def storeBodies (bodies : List (FunctionId × Body)) : Pass Unit :=
  bodies.forM fun (f, body) => modifyFunction f ({ · with lowered := some body })

/-- Lowers every function that has code. The pool is in use while functions are
lowered: one that cannot be lowered leaves the program without strings. -/
def generateCode (options : CompileOptions) : Pass Unit := do
  requireLayouts
  let p ← get
  set { p with strings := #[] }
  let (bodies, strings) ←
    lowerFunctions p options (p.functions.toList.filter FunctionDecl.isLowerable) p.strings
  storeBodies bodies
  modify ({ · with strings := strings })

end Pass

end StackBackend
