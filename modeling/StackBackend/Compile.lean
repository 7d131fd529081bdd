import StackBackend.Closure
import StackBackend.Layout.Flatten
import StackBackend.Lowering.Function
import StackBackend.Members
import StackBackend.Verify

/-! The whole back end. -/

namespace StackBackend

/-- The stages before code: implicit members, closures, class layouts. -/
def Pass.prepare : Pass Unit := do
  synthesizeMembers
  convertClosures
  flattenClasses

def Pass.compileAll (options : CompileOptions) : Pass Unit := do
  prepare
  generateCode options
  if options.verify then
    match verifyProgram (← get) with
    | .ok () => pure ()
    | .error e => stop e

def Program.compile (p : Program) (options : CompileOptions) : Checked Program :=
  match (Pass.compileAll options).run p with
  | .ok () lowered => .ok lowered
  | .error fault _ => .error fault

def Program.loweredCount (p : Program) : Nat :=
  (p.functions.filter (·.lowered.isSome)).size

end StackBackend
