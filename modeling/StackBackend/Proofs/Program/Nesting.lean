import StackBackend.Closure.Receiver
import StackBackend.Proofs.CheckedLists
import StackBackend.Proofs.Program.Consistent

/-! How functions are nested. The functions around a function come before it, so walks
outward end, and the receiver that a function may use implicitly is that of the first
member on the way. -/

namespace StackBackend.Program

variable {p : Program} {f g k : FunctionId}

/-- The second function is the first or one around it. -/
inductive Within (p : Program) : FunctionId → FunctionId → Prop where
  | here (f : FunctionId) : Within p f f
  | around {f g k : FunctionId} (h : p.enclosingFunction f = .ok (some g)) (rest : Within p g k) :
    Within p f k

section

variable (hp : p.Consistent)
include hp

theorem enclosing_lt (hf : f.index < p.functions.size)
    (h : p.enclosingFunction f = .ok (some g)) : g.index < f.index := by
  obtain ⟨home, o, _, _, _, ho, hlt⟩ := enclosingFunction_ok hp hf
  rw [h] at ho
  cases ho
  exact hlt g rfl

theorem Within.le (h : p.Within f g) (hf : f.index < p.functions.size) : g.index ≤ f.index := by
  induction h with
  | here => exact Nat.le_refl _
  | around hg _ ih =>
    have hlt := enclosing_lt hp hf hg
    have hle := ih (by omega)
    omega

end

/-! ## Receivers -/

theorem receiverWithin_succ {decl : FunctionDecl} (hdecl : p.functions[f.index]? = some decl)
    (n : Nat) : p.receiverWithin (n + 1) f = match decl.receiver? with
      | some receiver => .ok (some receiver)
      | none => p.enclosingFunction f >>= fun outer => match outer with
        | some outer => p.receiverWithin n outer
        | none => .ok none := by
  rw [receiverWithin, functionAt_eq hdecl]
  rfl

section

variable (hp : p.Consistent)
include hp

theorem receiverWithin_answers (n : Nat) : ∀ {f : FunctionId}, f.index < p.functions.size →
    (p.receiverWithin n f).Answers := by
  induction n with
  | zero => intro f _; exact ⟨none, rfl⟩
  | succ n ih =>
    intro f hf
    obtain ⟨decl, hdecl⟩ := exists_of_lt hf
    obtain ⟨_, o, _, _, _, ho, hlt⟩ := enclosingFunction_ok hp hf
    rw [receiverWithin_succ hdecl]
    cases decl.receiver? with
    | some receiver => exact ⟨_, rfl⟩
    | none =>
      refine Checked.answers_bind ho ?_
      cases o with
      | none => exact ⟨none, rfl⟩
      | some g =>
        have hg := hlt g rfl
        exact ih (by omega)

theorem receiverWithin_sound (n : Nat) : ∀ {f : FunctionId} {d : DefnId},
    f.index < p.functions.size → p.receiverWithin n f = .ok (some d) →
      ∃ g decl, p.Within f g ∧ p.functions[g.index]? = some decl ∧ decl.receiver? = some d := by
  induction n with
  | zero => intro f d _ h; cases h
  | succ n ih =>
    intro f d hf h
    obtain ⟨decl, hdecl⟩ := exists_of_lt hf
    rw [receiverWithin_succ hdecl] at h
    cases hreceiver : decl.receiver? with
    | some receiver =>
      rw [hreceiver] at h
      cases h
      exact ⟨f, decl, .here f, hdecl, hreceiver⟩
    | none =>
      rw [hreceiver] at h
      obtain ⟨o, ho, h⟩ := Checked.bind_eq_ok.mp h
      cases o with
      | none => cases h
      | some outer =>
        have hlt := enclosing_lt hp hf ho
        obtain ⟨g, decl', hg, hdecl', hd⟩ := ih (by omega) h
        exact ⟨g, decl', .around ho hg, hdecl', hd⟩

theorem receiver_of_member {decl : FunctionDecl} (hdecl : p.functions[f.index]? = some decl)
    (hmember : decl.kind.owner? ≠ none) : ∃ d, decl.receiver? = some d := by
  have hparams := (hp.function hdecl).receiver hmember
  obtain ⟨d, rest, hd⟩ := List.exists_cons_of_ne_nil hparams
  obtain ⟨c, hc⟩ := Option.ne_none_iff_exists'.mp hmember
  exact ⟨d, by rw [FunctionDecl.receiver?, hc, hd]; rfl⟩

theorem receiverWithin_complete {g : FunctionId} {decl : FunctionDecl} (h : p.Within f g)
    (hdecl : p.functions[g.index]? = some decl) (hmember : decl.kind.owner? ≠ none) :
    ∀ {n : Nat}, f.index < p.functions.size → f.index < n →
      ∃ d, p.receiverWithin n f = .ok (some d) := by
  induction h with
  | here f =>
    intro n _ hn
    obtain ⟨n, rfl⟩ : ∃ m, n = m + 1 := ⟨n - 1, by omega⟩
    obtain ⟨d, hd⟩ := receiver_of_member hp hdecl hmember
    exact ⟨d, by rw [receiverWithin_succ hdecl, hd]⟩
  | @around f parent g hparent _ ih =>
    intro n hf hn
    obtain ⟨n, rfl⟩ : ∃ m, n = m + 1 := ⟨n - 1, by omega⟩
    have hlt := enclosing_lt hp hf hparent
    obtain ⟨decl', hdecl'⟩ := exists_of_lt hf
    obtain ⟨d, hd⟩ := ih hdecl (n := n) (by omega) (by omega)
    rw [receiverWithin_succ hdecl']
    cases decl'.receiver? with
    | some receiver => exact ⟨receiver, rfl⟩
    | none => exact ⟨d, Checked.bind_eq_ok.mpr ⟨_, hparent, hd⟩⟩

end

end StackBackend.Program
