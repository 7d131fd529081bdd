/-! Powers of two and ten. -/

namespace StackBackend

def twoPow (n : Nat) : Nat := Nat.pow 2 n

def tenPow (n : Nat) : Nat := Nat.pow 10 n

end StackBackend
