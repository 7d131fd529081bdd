import StackBackend.Error

/-! Block lists under construction. Labels are handed out before their code exists
and become blocks when they are started. A label that nothing branches to is
never started, so dead code leaves no blocks. Blocks are numbered in the order
they are started. -/

namespace StackBackend

structure LabelState where
  code : Array Inst
  started : Bool
  /-- Whether a block that has been ended may go on here. -/
  referenced : Bool

def LabelState.fresh : LabelState := ⟨#[], false, false⟩

structure Draft where
  labels : Array LabelState
  /-- Started labels, in that order. -/
  order : Array Nat
  /-- The label that code is added to; none when code would never run. -/
  current : Option Nat

namespace Draft

/-- Hands out a label. -/
def label (d : Draft) : BlockId × Draft :=
  (⟨d.labels.size⟩, { d with labels := d.labels.push .fresh })

def isReachable (d : Draft) : Bool := d.current.isSome

def stateOf (d : Draft) (l : BlockId) : LabelState := d.labels.getD l.index .fresh

def isReferenced (d : Draft) (l : BlockId) : Bool := (d.stateOf l).referenced

def updateLabel (d : Draft) (i : Nat) (f : LabelState → LabelState) : Draft :=
  { d with labels := d.labels.modify i f }

/-- Goes on at a label. If nothing branches to it the code that follows is dead. -/
def start (d : Draft) (l : BlockId) : Bool × Draft :=
  let state := d.stateOf l
  if state.referenced && !state.started then
    let d := d.updateLabel l.index fun s => { s with started := true }
    (true, { d with order := d.order.push l.index, current := some l.index })
  else (false, { d with current := none })

def LabelState.isOpen (s : LabelState) : Bool := (s.code.back?.map (!·.isTerminator)).getD true

/-- Goes on in a block that was started and not ended. -/
def resume (d : Draft) (l : BlockId) : Draft :=
  let state := d.stateOf l
  { d with current := if state.started && LabelState.isOpen state then some l.index else none }

def append (d : Draft) (i : Nat) (inst : Inst) : Draft :=
  d.updateLabel i fun s => { s with code := s.code.push inst }

/-- Adds an instruction, unless it would never run. -/
def emit (d : Draft) (inst : Inst) : Draft :=
  match d.current with
  | some i => d.append i inst
  | none => d

def reference (d : Draft) (l : BlockId) : Draft :=
  d.updateLabel l.index fun s => { s with referenced := true }

/-- Ends the current block. What it branches to can be started from now on. -/
def terminate (d : Draft) (inst : Inst) : Draft :=
  match d.current with
  | some i => { (inst.successors.foldl reference d).append i inst with current := none }
  | none => d

/-- A draft at the start of its first block. -/
def initial : Draft :=
  let (entry, d) := Draft.label ⟨#[], #[], none⟩
  ((d.reference entry).start entry).2

/-- The block number of a label. -/
def numberOf? (d : Draft) (l : BlockId) : Option BlockId :=
  (d.order.findIdx? (· = l.index)).map Ref.mk

/-- The last target that was never started. -/
def missingTarget? (d : Draft) (code : List Inst) : Option BlockId :=
  ((code.flatMap Inst.successors).filter fun l => (d.numberOf? l).isNone).getLast?

def finishBlock (d : Draft) (function : String) (position label : Nat) :
    Except CompileError Block :=
  let code := (d.stateOf ⟨label⟩).code.toList
  if (code.getLast?.map Inst.isTerminator).getD false then
    match d.missingTarget? code with
    | some target => throw (.invalidBranchTarget function position target.index)
    | none =>
      pure ⟨⟨position⟩, code.map (Inst.mapTargets fun l => (d.numberOf? l).getD l)⟩
  else throw (.unterminatedBlock function position)

def finishBlocks (d : Draft) (function : String) :
    Nat → List Nat → Except CompileError (List Block)
  | _, [] => pure []
  | position, label :: rest => do
    let block ← d.finishBlock function position label
    pure (block :: (← finishBlocks d function (position + 1) rest))

/-- The block list, with labels replaced by block numbers. -/
def finish (d : Draft) (function : String) : Except CompileError (List Block) :=
  d.finishBlocks function 0 d.order.toList

end Draft

end StackBackend
