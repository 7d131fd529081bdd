import StackBackend.Lowering.Draft
import StackBackend.Lowering.Operators
import StackBackend.Program.Builtins

/-! Where lowering stands: the function it is in, the code drafted so far and the
string pool. -/

namespace StackBackend

/-- The function being lowered. -/
structure Site where
  program : Program
  function : FunctionDecl
  /-- Slots of parameters and locals. -/
  slots : List LocalSlot

structure LowerState where
  draft : Draft
  strings : Array String

abbrev Lower := StateT LowerState Checked

/-- What to do with the result of an expression. -/
inductive Mode where
  /-- Leave it on the stack. -/
  | value
  /-- Leave the stack as it was. -/
  | effect
deriving DecidableEq, Repr

/-- The position of a string in the pool; of repeated strings the last one. -/
def poolIndex? (pool : Array String) (s : String) : Option Nat :=
  (List.range pool.size).reverse.find? fun i => pool.getD i "" = s

/-- Looks a string up in the pool and adds it if it is new. -/
def intern (pool : Array String) (s : String) : Nat × Array String :=
  match poolIndex? pool s with
  | some i => (i, pool)
  | none => (pool.size, pool.push s)

namespace Lower

def draft {α : Type} (f : Draft → α × Draft) : Lower α :=
  modifyGet fun s => let (a, d) := f s.draft; (a, { s with draft := d })

def emit (inst : Inst) : Lower Unit := draft fun d => ((), d.emit inst)

def emitAll (insts : List Inst) : Lower Unit := insts.forM emit

def terminate (inst : Inst) : Lower Unit := draft fun d => ((), d.terminate inst)

def label : Lower BlockId := draft Draft.label

def start (l : BlockId) : Lower Bool := draft fun d => d.start l

/-- Code at a label, left out if nothing branches there. -/
def startThen (l : BlockId) (code : Lower Unit) : Lower Unit := do
  if ← start l then code

def resume (l : BlockId) : Lower Unit := draft fun d => ((), d.resume l)

def branch (target : BlockId) : Lower Unit := terminate (.branch target)

def branchIf (onTrue onFalse : BlockId) : Lower Unit := terminate (.branchIf onTrue onFalse)

def isReachable : Lower Bool := do pure (← get).draft.isReachable

def isReferenced (l : BlockId) : Lower Bool := do pure ((← get).draft.isReferenced l)

/-- A string that is pushed only in dead code does not enter the pool. -/
def emitString (s : String) : Lower Unit := do
  if ← isReachable then
    let i ← modifyGet fun state =>
      let (i, pool) := intern state.strings s
      (i, { state with strings := pool })
    emit (.string i)

/-- A value no one asked for. -/
def discard : Mode → Lower Unit
  | .effect => emit .drop
  | .value => pure ()

/-- A second copy of a value that is about to be stored. -/
def dupIfValue : Mode → Lower Unit
  | .value => emit .dup
  | .effect => pure ()

/-- The value of something that has none of its own. -/
def unitIfValue : Mode → Lower Unit
  | .value => emit .unit
  | .effect => pure ()

def stop {α : Type} (error : CompileError) : Lower α := throw (.rejected error)

end Lower

namespace Site

/-- Stops because the function cannot be lowered. -/
def fail {α : Type} (s : Site) (cause : LoweringCause) : Lower α :=
  Lower.stop (.invalidLowering s.function.name cause)

def orFail {α : Type} (s : Site) (result : Option α) (cause : LoweringCause) : Lower α :=
  match result with
  | some a => pure a
  | none => s.fail cause

/-- The slot of a parameter or local. One declared again has its last slot. -/
def slot (s : Site) (d : DefnId) : Lower Int :=
  match s.slots.reverse.find? (·.defn = d) with
  | some l => pure l.slot
  | none => do
    let name := (← s.program.defnAt d).name
    Lower.stop (.unresolvedDefinition s.function.name name)

mutual
/-- A runtime type: its arguments, then its class. -/
def emitTy (s : Site) : Ty → Lower Unit
  | .object c args _ => do
    emitTys s args
    Lower.emit (.classType c)
  | .variable t => Lower.emit (.typeVar t)
  | ty => s.fail (.notATypeArgument ty)
def emitTys (s : Site) : List Ty → Lower Unit
  | [] => pure ()
  | ty :: rest => do
    emitTy s ty
    emitTys s rest
end

/-- A checked cast between different class types; nothing between others. -/
def coerce (s : Site) (source target : Ty) : Lower Unit :=
  match source, target with
  | .object c args _, .object c' args' nullable =>
    if c ≠ c' ∨ args ≠ args' then do
      s.emitTy (.object c' args' nullable)
      Lower.emit .cast
    else pure ()
  | _, _ => pure ()

/-- Where the class that declares a field keeps it. -/
def fieldSlot (s : Site) (d : DefnId) : Lower (Nat × Storage) := do
  let defn ← s.program.defnAt d
  match defn.kind with
  | .field c =>
    let cls ← s.program.classAt c
    match cls.layout with
    | none => Lower.stop (.layoutNotFinalized cls.name)
    | some layout =>
      match layout.fieldIndex? d, layout.field? d with
      | some index, some slot => pure (index, slot.storage)
      | _, _ => s.fail (.missingField defn.name cls.name)
  | _ => s.fail (.notAField defn.name)

def loadField (s : Site) (d : DefnId) : Lower Unit := do
  let (index, storage) ← s.fieldSlot d
  let nullable := (← s.program.defnAt d).ty.isNullable
  Lower.emit (storage.load nullable index)

/-- Stores into a field of the object on top of the stack the value below it. -/
def initField (s : Site) (d : DefnId) : Lower Unit := do
  let (index, storage) ← s.fieldSlot d
  Lower.emit (storage.store index)

/-- Stores the value on top of the stack into a field of the object below it. The
value stays there if it is asked for. -/
def storeField (s : Site) (d : DefnId) (mode : Mode) : Lower Unit := do
  match mode with
  | .value => Lower.emitAll [.dup, .swap2]
  | .effect => Lower.emit .swap
  s.initField d

def loadVariable (s : Site) (d : DefnId) : Lower Unit := do
  let defn ← s.program.defnAt d
  match defn.kind with
  | .global index => Lower.emit (.loadGlobal index)
  | .parameter | .localVar => Lower.emit (.loadLocal (← s.slot d))
  | .field _ => s.fail (.fieldReadWithoutReceiver defn.name)

def storeVariable (s : Site) (d : DefnId) : Lower Unit := do
  let defn ← s.program.defnAt d
  match defn.kind with
  | .global index => Lower.emit (.storeGlobal index)
  | .parameter | .localVar => Lower.emit (.storeLocal (← s.slot d))
  | .field _ => s.fail (.fieldWrittenWithoutReceiver defn.name)

def binaryInst (s : Site) (op : BinaryOp) (ty : Ty) : Lower Inst :=
  s.orFail (op.inst? ty) (.undefinedBinary op ty)

def literal (value : Literal) : Lower Unit :=
  match value with
  | .unit => Lower.emit .unit
  | .boolean true => Lower.emit .true
  | .boolean false => Lower.emit .false
  | .i8 n => Lower.emit (.i8 n)
  | .i16 n => Lower.emit (.i16 n)
  | .i32 n => Lower.emit (.i32 n)
  | .i64 n => Lower.emit (.i64 n)
  | .f32 x => Lower.emit (.f32 x)
  | .f64 x => Lower.emit (.f64 x)
  | .null => Lower.emit .null
  | .string s => Lower.emitString s

/-- The slot of a method in a class's table. -/
def slotIn? (p : Program) (method : FunctionId) (c : ClassId) : Checked (Option Nat) := do
  pure ((← p.classAt c).layout.bind (·.methodSlot? method))

/-- The first of the classes that has the method in its table. -/
def firstSlot? (p : Program) (method : FunctionId) : List ClassId → Checked (Option Nat)
  | [] => pure none
  | c :: rest => do
    match ← slotIn? p method c with
    | some slot => pure (some slot)
    | none => firstSlot? p method rest

/-- Whether nothing can be derived from the class of a receiver. -/
def hasFinalClass (p : Program) (receiver : Ty) : Checked Bool :=
  match receiver.class? with
  | some c => do pure (← p.classAt c).isFinal
  | none => pure false

/-- A call of a method: direct when only one function can be meant, otherwise
through the method table of the receiver. -/
def dispatch (s : Site) (receiver : Ty) (method : FunctionId) (argc : Nat) : Lower Inst := do
  let target ← s.program.functionAt method
  if !receiver.isObject || target.isFinal then pure (.call method)
  else
    if ← hasFinalClass s.program receiver then pure (.call method)
    else
      let classes := receiver.class?.toList ++ target.kind.owner?.toList
      let slot ← s.orFail (← firstSlot? s.program method classes) (.noMethodSlot target.name)
      pure (.callVirtual (argc + 1) slot)

/-- Type arguments of the class that declares a method, seen from the receiver. -/
def emitOwnerTys (s : Site) (receiver : Ty) (method : FunctionId) : Lower Unit := do
  let owner := (← s.program.functionAt method).kind.owner?
  match receiver.classTy?, owner with
  | some ty, some owner => do
    match ← s.program.instantiateSupertype ty owner with
    | some args => s.emitTys args
    | none => pure ()
  | _, _ => pure ()

/-- The slot of a method that handlers call. -/
def builtinSlot (s : Site) (c : ClassId) (method : FunctionId) : Lower Nat := do
  match ← slotIn? s.program method c with
  | some slot => pure slot
  | none =>
    let name := (← s.program.functionAt method).name
    s.fail (.noBuiltinSlot name)

end Site

end StackBackend
