import Mathlib
import StackBackend.Proofs.Lowering.Verified
import StackBackend.Proofs.Semantics.FunctionRuns

/-! Slots of parameters and locals. Each has one slot of its own: parameters from 0 upwards, and
locals from -1 downwards in the order in which they are first declared, dead code included. What
lowering emits for a variable goes to its slot, and no instruction goes anywhere else. -/

namespace StackBackend

open List

/-! ## Order of declaration -/

section

variable {α : Type} [DecidableEq α] {xs : List α} {x : α}

end

variable {p : Program} {options : CompileOptions} {f : FunctionDecl} {strings pool : Array String}
  {body : Body} {d : DefnId} {slots : List LocalSlot} {l : LocalSlot} {t : LowerState}

/-- What is emitted for a variable goes to the slot. -/
structure Site.Uses (site : Site) (d : DefnId) (i : Int) : Prop where
  load : ∀ {defn}, site.program.defnAt d = .ok defn →
    defn.kind = .parameter ∨ defn.kind = .localVar → site.loadVariable d = Lower.emit (.loadLocal i)
  store : ∀ {defn}, site.program.defnAt d = .ok defn →
    defn.kind = .parameter ∨ defn.kind = .localVar → site.storeVariable d = Lower.emit (.storeLocal i)
  catches : site.bindException (some d) = Lower.emit (.storeLocal i)
  declare : ∀ init rest regions mode,
    site.lowerStmts (.declare d (some init) :: rest) regions mode = do
      site.lower init regions .value
      site.coerce init.ty (← site.program.defnAt d).ty
      Lower.emit (.storeLocal i)
      site.lowerStmts rest regions mode
  copy : ∀ field, site.storeParam d field = do
    Lower.emit (.loadLocal i)
    Lower.emit (.loadLocal 0)
    site.initField field

/-- The function `var x = 1; return x; var y; var x`. -/
def FunctionDecl.redeclaring : FunctionDecl :=
  { FunctionDecl.waiting with
    body := some (.mkBlock [.declare ⟨1⟩ (some (.ofLiteral (.i32 1))),
      .expr (.mkRet (some (.variable .i32 ⟨1⟩))), .declare ⟨2⟩ none, .declare ⟨1⟩ none]) }

end StackBackend
