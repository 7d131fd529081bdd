import StackBackend.Toml.Reader

/-! What a caller can choose about a compilation, and how it is written down. -/

namespace StackBackend

structure CompileOptions where
  /-- Whether the result is checked before it is handed out. -/
  verify : Bool
  /-- The most locals a function may declare. -/
  maxLocals : Nat
deriving DecidableEq, Repr

namespace CompileOptions

def standard : CompileOptions := ⟨true, 65535⟩

def verifyOf? : Option Toml → Option Bool
  | none => some standard.verify
  | some (.boolean b) => some b
  | some _ => none

def maxLocalsOf? : Option Toml → Option Nat
  | none => some standard.maxLocals
  | some (.integer n) => if 0 ≤ n then some n.toNat else none
  | some _ => none

/-- Reads options from a TOML document. What it does not say is as usual, and what
else it says is passed over. -/
def ofToml? (text : String) : Option CompileOptions := do
  let entries ← Toml.parse? text
  pure ⟨← verifyOf? (entries.lookup "verify"), ← maxLocalsOf? (entries.lookup "max_locals")⟩

end CompileOptions

end StackBackend
