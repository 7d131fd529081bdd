import StackBackend.Proofs.Program.PassGives

/-! Total correctness of stages. A stage ensures a property if it succeeds and the
property holds of its result and of the program it leaves behind. -/

namespace StackBackend.Pass

open List (append_nil append_cons)

variable {α β : Type} {p q : Program}
variable {I : List α → β → Program → Prop} {a : α} {step : β → α → Pass β}

/-- The stage succeeds with something that has the property. -/
def Ensures (m : Pass α) (p : Program) (Q : α → Program → Prop) : Prop :=
  ∃ a q, m.Gives p a q ∧ Q a q

theorem Gives.unique {m : Pass α} {b : α} {r : Program} (h : m.Gives p a q)
    (h' : m.Gives p b r) : a = b ∧ q = r := by
  cases h.symm.trans h'
  exact ⟨rfl, rfl⟩

namespace Ensures

variable {m : Pass α} {f : α → Pass β} {Q Q' : α → Program → Prop} {R : β → Program → Prop}

theorem of_gives (h : m.Ensures p Q) (hm : m.Gives p a q) : Q a q := by
  obtain ⟨b, r, hr, hQ⟩ := h
  obtain ⟨rfl, rfl⟩ := hm.unique hr
  exact hQ

theorem mono (h : m.Ensures p Q) (hQ : ∀ a q, Q a q → Q' a q) : m.Ensures p Q' := by
  obtain ⟨a, q, hm, ha⟩ := h
  exact ⟨a, q, hm, hQ a q ha⟩

theorem pure (h : Q a p) : (Pure.pure a : Pass α).Ensures p Q :=
  ⟨a, p, rfl, h⟩

theorem bind (h : m.Ensures p Q) (hf : ∀ a q, Q a q → (f a).Ensures q R) :
    (m >>= f).Ensures p R := by
  obtain ⟨a, q, hm, ha⟩ := h
  obtain ⟨b, r, hr, hb⟩ := hf a q ha
  exact ⟨b, r, gives_bind.mpr ⟨a, q, hm, hr⟩, hb⟩

theorem after (hm : m.Gives p a q) (h : (f a).Ensures q R) : (m >>= f).Ensures p R := by
  obtain ⟨b, r, hr, hb⟩ := h
  exact ⟨b, r, gives_bind.mpr ⟨a, q, hm, hr⟩, hb⟩

theorem ask {query : Program → Checked α} (ha : query p = .ok a) (h : (f a).Ensures p R) :
    (Pass.ask query >>= f).Ensures p R :=
  after (gives_ask.mpr ⟨ha, rfl⟩) h

theorem get {f : Program → Pass β} (h : (f p).Ensures p R) :
    ((MonadState.get : Pass Program) >>= f).Ensures p R :=
  after (gives_get.mpr ⟨rfl, rfl⟩) h

theorem foldlM :
    ∀ (xs done : List α) {b : β} {p : Program}, I done b p →
      (∀ pre x post b p, done ++ xs = pre ++ x :: post → I pre b p →
        (step b x).Ensures p (I (pre ++ [x]))) →
      (xs.foldlM step b).Ensures p (I (done ++ xs))
  | [], done, b, p, h, _ => by
    rw [append_nil]
    exact .pure h
  | x :: rest, done, b, p, h, hstep => by
    rw [List.foldlM_cons]
    refine .bind (hstep done x rest b p rfl h) fun b' q hq => ?_
    rw [append_cons] at hstep ⊢
    exact foldlM rest (done ++ [x]) hq hstep

theorem forM {step : α → Pass PUnit} {I : List α → Program → Prop} (xs : List α) :
    ∀ (done : List α) {p : Program}, I done p →
      (∀ pre x post p, done ++ xs = pre ++ x :: post → I pre p →
        (step x).Ensures p fun _ => I (pre ++ [x])) →
      (xs.forM step).Ensures p fun _ => I (done ++ xs) := by
  induction xs with
  | nil =>
    intro done p h _
    rw [append_nil]
    exact .pure h
  | cons x rest ih =>
    intro done p h hstep
    change (step x >>= fun _ => rest.forM step).Ensures p _
    refine .bind (hstep done x rest p rfl h) fun _ q hq => ?_
    rw [append_cons] at hstep ⊢
    exact ih (done ++ [x]) hq hstep

theorem mapM {f : α → Pass β} {I : List α → List β → Program → Prop} (xs : List α) :
    ∀ (done : List α) (ys : List β) {p : Program}, I done ys p →
      (∀ pre x post ys p, done ++ xs = pre ++ x :: post → I pre ys p →
        (f x).Ensures p fun y q => I (pre ++ [x]) (ys ++ [y]) q) →
      (xs.mapM f).Ensures p fun zs q => I (done ++ xs) (ys ++ zs) q := by
  induction xs with
  | nil =>
    intro done ys p h _
    rw [append_nil]
    exact .pure (by rw [List.reverse_nil, append_nil]; exact h)
  | cons x rest ih =>
    intro done ys p h hstep
    rw [List.mapM_cons]
    refine .bind (hstep done x rest ys p rfl h) fun y q hq => ?_
    rw [append_cons] at hstep ⊢
    refine .bind (ih (done ++ [x]) (ys ++ [y]) hq hstep) fun zs r hr => .pure ?_
    rw [append_cons ys y zs]
    exact hr

end Ensures

namespace Gives

theorem forM {step : α → Pass PUnit} {I : List α → Program → Prop} (xs : List α) :
    ∀ (done : List α) {p q : Program}, (xs.forM step).Gives p .unit q → I done p →
      (∀ pre x post p q, done ++ xs = pre ++ x :: post → I pre p →
        (step x).Gives p .unit q → I (pre ++ [x]) q) → I (done ++ xs) q := by
  induction xs with
  | nil =>
    intro done p q h hI _
    obtain ⟨_, rfl⟩ := gives_pure.mp h
    rw [append_nil]
    exact hI
  | cons x rest ih =>
    intro done p q h hI hstep
    change (step x >>= fun _ => rest.forM step).Gives p _ q at h
    obtain ⟨_, p', hx, hrest⟩ := gives_bind.mp h
    have hI' := hstep done x rest p p' rfl hI hx
    rw [append_cons] at hstep ⊢
    exact ih (done ++ [x]) hrest hI' hstep

end Gives

end StackBackend.Pass
