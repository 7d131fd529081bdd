import Mathlib.Data.List.Forall2
import StackBackend.Proofs.Program.PassGives

/-! A question that is asked of every member of a list is answered if each of them has an
answer. -/

namespace StackBackend.Checked

open List

variable {α β : Type} {xs : List α} {ys : List β}

def Answers (x : Checked α) : Prop := ∃ a, x = .ok a

theorem answers_bind {x : Checked α} {f : α → Checked β} {a : α} (hx : x = .ok a)
    (hf : (f a).Answers) : (x >>= f).Answers := by
  obtain ⟨b, hb⟩ := hf
  exact ⟨b, bind_eq_ok.mpr ⟨a, hx, hb⟩⟩

section FilterMap

variable {f : α → Checked (Option β)}

theorem filterMapM_cons_eq {x : α} :
    (x :: xs).filterMapM f = .ok ys ↔
      (f x = .ok none ∧ xs.filterMapM f = .ok ys) ∨
      ∃ b rest, f x = .ok (some b) ∧ xs.filterMapM f = .ok rest ∧ ys = b :: rest := by
  rw [List.filterMapM_cons, bind_eq_ok]
  constructor
  · rintro ⟨o, ho, h⟩
    cases o with
    | none => exact .inl ⟨ho, h⟩
    | some b =>
      obtain ⟨rest, hrest, h⟩ := bind_eq_ok.mp h
      cases h
      exact .inr ⟨b, rest, ho, hrest, rfl⟩
  · rintro (⟨ho, h⟩ | ⟨b, rest, ho, hrest, rfl⟩)
    · exact ⟨none, ho, h⟩
    · exact ⟨some b, ho, bind_eq_ok.mpr ⟨rest, hrest, rfl⟩⟩

theorem filterMapM_answers :
    (xs.filterMapM f).Answers ↔ ∀ x ∈ xs, (f x).Answers := by
  induction xs with
  | nil => exact ⟨fun _ => forall_mem_nil _, fun _ => ⟨[], rfl⟩⟩
  | cons x rest ih =>
    rw [forall_mem_cons, ← ih]
    constructor
    · rintro ⟨ys, h⟩
      rcases filterMapM_cons_eq.mp h with ⟨ho, h⟩ | ⟨b, ys', ho, h, _⟩
      · exact ⟨⟨_, ho⟩, ⟨_, h⟩⟩
      · exact ⟨⟨_, ho⟩, ⟨_, h⟩⟩
    · rintro ⟨⟨o, ho⟩, ⟨ys, h⟩⟩
      cases o with
      | none => exact ⟨ys, filterMapM_cons_eq.mpr (.inl ⟨ho, h⟩)⟩
      | some b => exact ⟨b :: ys, filterMapM_cons_eq.mpr (.inr ⟨b, ys, ho, h, rfl⟩)⟩

theorem mem_filterMapM :
    ∀ {ys : List β}, xs.filterMapM f = .ok ys → ∀ {b : β},
      b ∈ ys ↔ ∃ x ∈ xs, f x = .ok (some b) := by
  induction xs with
  | nil =>
    intro ys h b
    cases h
    simp
  | cons x rest ih =>
    intro ys h b
    rcases filterMapM_cons_eq.mp h with ⟨ho, hrest⟩ | ⟨b', ys', ho, hrest, rfl⟩
    · rw [ih hrest]
      simp [ho]
    · rw [mem_cons, ih hrest]
      simp [ho, eq_comm]

end FilterMap

section Map

variable {f : α → Checked β}

theorem mapM_cons_eq {x : α} :
    (x :: xs).mapM f = .ok ys ↔
      ∃ b rest, f x = .ok b ∧ xs.mapM f = .ok rest ∧ ys = b :: rest := by
  rw [List.mapM_cons, bind_eq_ok]
  constructor
  · rintro ⟨b, hb, h⟩
    obtain ⟨rest, hrest, h⟩ := bind_eq_ok.mp h
    cases h
    exact ⟨b, rest, hb, hrest, rfl⟩
  · rintro ⟨b, rest, hb, hrest, rfl⟩
    exact ⟨b, hb, bind_eq_ok.mpr ⟨rest, hrest, rfl⟩⟩

theorem mapM_eq_ok :
    ∀ {ys : List β}, xs.mapM f = .ok ys ↔ List.Forall₂ (fun x y => f x = .ok y) xs ys := by
  induction xs with
  | nil =>
    intro ys
    constructor
    · intro h
      cases h
      exact .nil
    · intro h
      cases h
      rfl
  | cons x rest ih =>
    intro ys
    rw [mapM_cons_eq, List.forall₂_cons_left_iff]
    constructor
    · rintro ⟨b, ys', hb, h, rfl⟩
      exact ⟨b, ys', hb, ih.mp h, rfl⟩
    · rintro ⟨b, ys', hb, h, rfl⟩
      exact ⟨b, ys', hb, ih.mpr h, rfl⟩

theorem mapM_answers : (xs.mapM f).Answers ↔ ∀ x ∈ xs, (f x).Answers := by
  induction xs with
  | nil => exact ⟨fun _ => forall_mem_nil _, fun _ => ⟨[], rfl⟩⟩
  | cons x rest ih =>
    rw [forall_mem_cons, ← ih]
    constructor
    · rintro ⟨ys, h⟩
      obtain ⟨b, ys', hb, h, _⟩ := mapM_cons_eq.mp h
      exact ⟨⟨b, hb⟩, ⟨ys', h⟩⟩
    · rintro ⟨⟨b, hb⟩, ⟨ys, h⟩⟩
      exact ⟨b :: ys, mapM_cons_eq.mpr ⟨b, ys, hb, h, rfl⟩⟩

theorem mem_mapM (h : xs.mapM f = .ok ys) {b : β} :
    b ∈ ys ↔ ∃ x ∈ xs, f x = .ok b := by
  have hall := mapM_eq_ok.mp h
  clear h
  induction hall with
  | nil => simp
  | cons hb _ ih => simp [ih, hb, eq_comm]

theorem mapM_fst {g : α → Checked β} : ∀ {ys : List (α × β)},
    xs.mapM (fun x => do pure (x, ← g x)) = .ok ys → ys.map Prod.fst = xs := by
  induction xs with
  | nil =>
    intro ys h
    cases h
    rfl
  | cons x rest ih =>
    intro ys h
    obtain ⟨y, ys', hy, hrest, rfl⟩ := mapM_cons_eq.mp h
    obtain ⟨b, _, hy⟩ := bind_eq_ok.mp hy
    cases hy
    rw [map_cons, ih hrest]

end Map

section Filter

variable {f : α → Checked Bool}

theorem filterAuxM_cons_eq {x : α} {xs acc ys : List α} :
    (x :: xs).filterAuxM f acc = .ok ys ↔
      ∃ b, f x = .ok b ∧ xs.filterAuxM f (if b then x :: acc else acc) = .ok ys := by
  rw [List.filterAuxM, bind_eq_ok]
  constructor <;> rintro ⟨b, hb, h⟩ <;> cases b <;> exact ⟨_, hb, h⟩

theorem filterAuxM_answers :
    ∀ {acc : List α}, (xs.filterAuxM f acc).Answers ↔ ∀ x ∈ xs, (f x).Answers := by
  induction xs with
  | nil => intro acc; exact ⟨fun _ => forall_mem_nil _, fun _ => ⟨acc, rfl⟩⟩
  | cons x rest ih =>
    intro acc
    rw [forall_mem_cons]
    constructor
    · rintro ⟨ys, h⟩
      obtain ⟨b, hb, h⟩ := filterAuxM_cons_eq.mp h
      exact ⟨⟨b, hb⟩, ih.mp ⟨ys, h⟩⟩
    · rintro ⟨⟨b, hb⟩, h⟩
      obtain ⟨ys, h⟩ := (@ih (if b then x :: acc else acc)).mpr h
      exact ⟨ys, filterAuxM_cons_eq.mpr ⟨b, hb, h⟩⟩

theorem filterM_answers :
    (xs.filterM f).Answers ↔ ∀ x ∈ xs, (f x).Answers := by
  rw [← @filterAuxM_answers α xs f []]
  constructor
  · rintro ⟨ys, h⟩
    obtain ⟨zs, hzs, _⟩ := bind_eq_ok.mp h
    exact ⟨zs, hzs⟩
  · rintro ⟨zs, hzs⟩
    exact answers_bind hzs ⟨_, rfl⟩

theorem mem_filterAuxM :
    ∀ {acc ys : List α}, xs.filterAuxM f acc = .ok ys → ∀ {x : α},
      x ∈ ys ↔ x ∈ acc ∨ x ∈ xs ∧ f x = .ok true := by
  induction xs with
  | nil =>
    intro acc ys h x
    cases h
    simp
  | cons y rest ih =>
    intro acc ys h x
    obtain ⟨b, hb, hrest⟩ := filterAuxM_cons_eq.mp h
    rw [ih hrest]
    cases b with
    | false =>
      have hne : f x = .ok true → x ≠ y := fun hx heq => by
        rw [heq, hb] at hx
        cases hx
      simp only [Bool.false_eq_true, if_false, mem_cons]
      tauto
    | true =>
      simp only [if_true, mem_cons]
      constructor
      · rintro ((rfl | h) | h)
        · exact .inr ⟨.inl rfl, hb⟩
        · exact .inl h
        · exact .inr ⟨.inr h.1, h.2⟩
      · rintro (h | ⟨rfl | h, hx⟩)
        · exact .inl (.inr h)
        · exact .inl (.inl rfl)
        · exact .inr ⟨h, hx⟩

theorem mem_filterM {xs ys : List α} (h : xs.filterM f = .ok ys) {x : α} :
    x ∈ ys ↔ x ∈ xs ∧ f x = .ok true := by
  obtain ⟨zs, hzs, hys⟩ := bind_eq_ok.mp h
  cases hys
  rw [mem_reverse, mem_filterAuxM hzs]
  simp

end Filter

section Fold

variable {step : β → α → Checked β}

/-- What every step of a loop keeps holds after it. -/
theorem foldlM_keeps {I : List α → β → Prop} :
    ∀ (xs done : List α) {b c : β}, xs.foldlM step b = .ok c → I done b →
      (∀ pre x post b c, done ++ xs = pre ++ x :: post → I pre b → step b x = .ok c →
        I (pre ++ [x]) c) → I (done ++ xs) c
  | [], done, b, c, h, hI, _ => by
    cases h
    rw [append_nil]
    exact hI
  | x :: rest, done, b, c, h, hI, hstep => by
    rw [List.foldlM_cons] at h
    obtain ⟨b', hx, hrest⟩ := bind_eq_ok.mp h
    have hI' := hstep done x rest b b' rfl hI hx
    rw [append_cons] at hstep ⊢
    exact foldlM_keeps rest (done ++ [x]) hrest hI' hstep

/-- A loop whose steps are answered, as long as an invariant holds, is answered. -/
theorem foldlM_answers {I : List α → β → Prop} :
    ∀ (xs done : List α) {b : β}, I done b →
      (∀ pre x post b, done ++ xs = pre ++ x :: post → I pre b →
        ∃ c, step b x = .ok c ∧ I (pre ++ [x]) c) → (xs.foldlM step b).Answers
  | [], _, b, _, _ => ⟨b, rfl⟩
  | x :: rest, done, b, hI, hstep => by
    rw [List.foldlM_cons]
    obtain ⟨c, hc, hI'⟩ := hstep done x rest b rfl hI
    rw [append_cons] at hstep
    exact answers_bind hc (foldlM_answers rest (done ++ [x]) hI' hstep)

/-- Two loops whose steps do the same, as long as an invariant holds. -/
theorem foldlM_congr {I : β → Prop} {step' : β → α → Checked β}
    (hsame : ∀ {b} (x : α), I b → step' b x = step b x)
    (hkeep : ∀ {b} (x : α) {c}, I b → step b x = .ok c → I c) (xs : List α) :
    ∀ {b : β}, I b → xs.foldlM step' b = xs.foldlM step b := by
  induction xs with
  | nil => exact fun _ => rfl
  | cons x rest ih =>
    intro b hb
    rw [List.foldlM_cons, List.foldlM_cons, hsame x hb]
    cases hx : step b x with
    | error e => rfl
    | ok c => exact ih (hkeep x hb hx)

end Fold

end StackBackend.Checked
