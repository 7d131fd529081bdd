import StackBackend.Program.Basic

/-! Checks on lowered bodies: blocks numbered by position, one terminator at the
end of each, targets inside the body, operands inside the program's tables, and
every block reachable from the first. -/

namespace StackBackend

/-- Whether the operand of an instruction refers to something that exists. -/
def operandInRange (p : Program) (body : Body) : Inst → Bool
  | .loadLocal slot | .storeLocal slot =>
    -(body.locals.length : Int) ≤ slot && slot < body.params.length
  | .loadGlobal i | .storeGlobal i => i < p.globals.size
  | .string i => i < p.strings.size
  | .allocate c | .allocateArray c _ | .classRef c | .classType c => c.index < p.classes.size
  | .typeVar t => t.index < p.typeParams.size
  | .call f => f.index < p.functions.size
  | .callVirtual argc _ => 1 ≤ argc
  | _ => true

namespace Body

/-- Marks what can be reached from the pending blocks. Every step either drops a
pending block or marks one, which adds at most two. -/
def explore (blocks : Array Block) : Nat → List BlockId → Array Bool → Array Bool
  | 0, _, seen => seen
  | _, [], seen => seen
  | steps + 1, b :: pending, seen =>
    if seen.getD b.index true then explore blocks steps pending seen
    else
      let next := (blocks[b.index]?.map Block.successors).getD []
      explore blocks steps (next ++ pending) (seen.modify b.index fun _ => true)

/-- For each block, whether control can get there from the first one. -/
def reachedBlocks (body : Body) : Array Bool :=
  let blocks := body.blocks.toArray
  explore blocks (2 * blocks.size + 2) [⟨0⟩] (Array.replicate blocks.size false)

end Body

/-- The checks on a single block at a given position. -/
def checkBlock (p : Program) (function : String) (body : Body) (position : Nat)
    (block : Block) : Except CompileError Unit := do
  if block.id.index ≠ position then
    throw (.invalidLowering function (.misnumberedBlock position block.id.index))
  let some last := block.instructions.getLast?
    | throw (.unterminatedBlock function position)
  if !last.isTerminator then throw (.unterminatedBlock function position)
  if let some early := block.instructions.dropLast.find? Inst.isTerminator then
    throw (.invalidLowering function (.earlyTerminator position early))
  if let some target := last.successors.find? (body.blocks.length ≤ ·.index) then
    throw (.invalidBranchTarget function position target.index)
  if let some inst := block.instructions.find? (!operandInRange p body ·) then
    throw (.invalidOperand function position inst)

def checkBlocks (p : Program) (function : String) (body : Body) :
    Nat → List Block → Except CompileError Unit
  | _, [] => pure ()
  | position, block :: rest => do
    checkBlock p function body position block
    checkBlocks p function body (position + 1) rest

def verifyBody (p : Program) (function : String) (body : Body) : Except CompileError Unit := do
  if body.blocks.isEmpty then throw (.invalidLowering function .noBlocks)
  checkBlocks p function body 0 body.blocks
  if let some position := body.reachedBlocks.findIdx? (!·) then
    throw (.unreachableBlock function position)

/-- Checks every function that has been lowered. -/
def verifyProgram (p : Program) : Except CompileError Unit :=
  p.functions.toList.forM fun f =>
    match f.lowered with
    | some body => verifyBody p f.name body
    | none => pure ()

end StackBackend
