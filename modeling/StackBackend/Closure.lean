import StackBackend.Closure.Receiver
import StackBackend.Closure.Body

/-! Closure conversion: afterwards no body reaches into the frame of an enclosing
function. -/

namespace StackBackend.Pass

def convertClosures : Pass Unit := do
  resolveReceivers
  let captures ← ask Program.captures
  let plan ← addRecords captures
  (List.range (← get).functions.size).forM fun i => convertFunction plan ⟨i⟩

end StackBackend.Pass
