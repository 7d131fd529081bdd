import StackBackend.Program.Basic
import Mathlib.Tactic.Common

/-! What a stage over a program gives: a result and the program it leaves behind. -/

namespace StackBackend

variable {i : Nat} {table : Table} {v : PUnit}

theorem Checked.bind_eq_ok {α β : Type} {x : Checked α} {f : α → Checked β} {b : β} :
    x >>= f = .ok b ↔ ∃ a, x = .ok a ∧ f a = .ok b := by
  cases x with
  | error e =>
    constructor
    · intro h; cases h
    · rintro ⟨_, h, _⟩; cases h
  | ok a =>
    constructor
    · intro h; exact ⟨a, rfl, h⟩
    · rintro ⟨_, h, hf⟩; cases h; exact hf

theorem Checked.bind_eq_error {α β : Type} {e : Fault} {x : Checked α} {f : α → Checked β} :
    x >>= f = .error e ↔ x = .error e ∨ ∃ a, x = .ok a ∧ f a = .error e := by
  cases x <;> simp [bind, Except.bind]

theorem Checked.foldlM_eq_error {α β : Type} {e : Fault} {step : β → α → Checked β} (xs : List α) :
    ∀ {b}, xs.foldlM step b = .error e → ∃ x ∈ xs, ∃ b, step b x = .error e := by
  induction xs with
  | nil => nofun
  | cons x rest ih =>
    intro b h
    rw [List.foldlM_cons] at h
    rcases bind_eq_error.mp h with h | ⟨b', _, h⟩
    · exact ⟨x, .head _, b, h⟩
    · obtain ⟨y, hy, h⟩ := ih h
      exact ⟨y, .tail _ hy, h⟩

theorem Checked.eq_ok_of_toOption {α : Type} {x : Checked α} {a : α}
    (h : x.toOption = some a) : x = .ok a := by
  cases x with
  | error e => cases h
  | ok b => cases h; rfl

theorem mem_of_entryAt {α : Type} {entries : Array α} {a : α}
    (h : entryAt table entries i = .ok a) : a ∈ entries.toList := by
  unfold entryAt at h
  split at h
  · rename_i entry he
    cases h
    exact Array.mem_toList_iff.mpr (Array.mem_of_getElem? he)
  · cases h

theorem entryAt_eq_ok {α : Type} {entries : Array α} {a : α} :
    entryAt table entries i = .ok a ↔ entries[i]? = some a := by
  unfold entryAt
  cases entries[i]? with
  | none => simp
  | some b => simp

theorem lt_size_of_entryAt {α : Type} {entries : Array α} {a : α}
    (h : entryAt table entries i = .ok a) : i < entries.size :=
  (Array.getElem?_eq_some_iff.mp (entryAt_eq_ok.mp h)).1

theorem entryAt_ne_rejected {α : Type} {entries : Array α} {e : CompileError} :
    entryAt table entries i ≠ .error (.rejected e) := by
  unfold entryAt
  split <;> nofun

namespace Pass

variable {α β : Type} {p q r : Program}

/-- The stage succeeds, with a result and a new program. -/
def Gives (m : Pass α) (p : Program) (a : α) (q : Program) : Prop := m p = .ok a q

def succeeds (m : Pass α) (p : Program) : Bool :=
  match m p with
  | .ok _ _ => true
  | .error _ _ => false

def left (m : Pass α) (p : Program) : Program :=
  match m p with
  | .ok _ q | .error _ q => q

theorem gives_left {m : Pass Unit} (h : m.succeeds p = true) : m.Gives p () (m.left p) := by
  unfold succeeds at h
  unfold Gives left
  split at h
  · rename_i hm
    rw [hm]
  · cases h

/-- What is to be seen of the program, if the stage succeeds. -/
def view? (m : Pass α) (view : Program → β) (p : Program) : Option β :=
  match m p with
  | .ok _ q => some (view q)
  | .error _ _ => none

theorem gives_of_view (m : Pass Unit) (view : Program → β) {v : β} (h : m.view? view p = some v) :
    m.Gives p () (m.left p) ∧ view (m.left p) = v := by
  unfold view? at h
  unfold Gives left
  split at h
  · rename_i hm
    rw [hm]
    exact ⟨rfl, Option.some.inj h⟩
  · cases h

theorem gives_iff {m : Pass α} {a b : α} (h : m.Gives p a q) : m.Gives p b r ↔ b = a ∧ r = q := by
  constructor
  · intro h'
    cases h.symm.trans h'
    exact ⟨rfl, rfl⟩
  · rintro ⟨rfl, rfl⟩
    exact h

theorem gives_pure {a b : α} : (pure a : Pass α).Gives p b q ↔ b = a ∧ q = p := gives_iff rfl

theorem gives_bind {m : Pass α} {f : α → Pass β} {b : β} :
    (m >>= f).Gives p b r ↔ ∃ a q, m.Gives p a q ∧ (f a).Gives q b r := by
  change EStateM.bind m f p = .ok b r ↔ _
  unfold EStateM.bind
  cases hm : m p with
  | error e q =>
    constructor
    · intro h; cases h
    · rintro ⟨a, q', h, _⟩; rw [Gives, hm] at h; cases h
  | ok a q =>
    constructor
    · intro h; exact ⟨a, q, hm, h⟩
    · rintro ⟨a', q', h, hf⟩
      rw [Gives, hm] at h
      cases h
      exact hf

theorem gives_get {a : Program} : (get : Pass Program).Gives p a q ↔ a = p ∧ q = p :=
  gives_iff rfl

theorem gives_set {s : Program} : (set s : Pass PUnit).Gives p v q ↔ q = s := by
  constructor
  · intro h; cases h; rfl
  · rintro rfl; rfl

theorem gives_modify {f : Program → Program} :
    (modify f : Pass PUnit).Gives p v q ↔ q = f p := by
  constructor
  · intro h; cases h; rfl
  · rintro rfl; rfl

theorem gives_lift {x : Checked α} {a : α} :
    (liftM x : Pass α).Gives p a q ↔ x = .ok a ∧ q = p := by
  cases x with
  | error e =>
    constructor
    · intro h; cases h
    · rintro ⟨h, _⟩; cases h
  | ok b => exact (gives_iff rfl).trans (by simp [eq_comm])

theorem gives_ask {query : Program → Checked α} {a : α} :
    (ask query).Gives p a q ↔ query p = .ok a ∧ q = p := by
  simp only [ask, gives_bind, gives_get, gives_lift]
  constructor
  · rintro ⟨_, _, ⟨rfl, rfl⟩, h⟩; exact h
  · intro h; exact ⟨p, p, ⟨rfl, rfl⟩, h⟩

theorem gives_ask_bind {query : Program → Checked α} {f : α → Pass β} {b : β} :
    (ask query >>= f).Gives p b r ↔ ∃ a, query p = .ok a ∧ (f a).Gives p b r := by
  rw [gives_bind]
  constructor
  · rintro ⟨a, q, ha, hf⟩
    obtain ⟨ha, rfl⟩ := gives_ask.mp ha
    exact ⟨a, ha, hf⟩
  · rintro ⟨a, ha, hf⟩
    exact ⟨a, p, gives_ask.mpr ⟨ha, rfl⟩, hf⟩

theorem bind_congr_of_gives {x : Pass α} {f g : α → Pass β}
    (h : ∀ a q, x.Gives p a q → f a q = g a q) : (x >>= f) p = (x >>= g) p := by
  simp only [bind, EStateM.bind]
  cases hx : x p with
  | ok a q => exact h a q hx
  | error => rfl

theorem gives_get_bind {f : Program → Pass β} {b : β} :
    ((get : Pass Program) >>= f).Gives p b r ↔ (f p).Gives p b r := by
  rw [gives_bind]
  constructor
  · rintro ⟨a, q, ha, hf⟩
    obtain ⟨rfl, rfl⟩ := gives_get.mp ha
    exact hf
  · intro hf
    exact ⟨p, p, gives_get.mpr ⟨rfl, rfl⟩, hf⟩

theorem not_gives_stop {e : CompileError} {a : α} : ¬ (stop e : Pass α).Gives p a q := by
  intro h; cases h

theorem gives_change {entries : Program → Array α} {change : Program → Program}
    {v : Unit} : (ask (fun p => entryAt table (entries p) i) >>= fun _ => modify change).Gives p v q ↔
      i < (entries p).size ∧ q = change p := by
  simp only [gives_ask_bind, gives_modify]
  constructor
  · rintro ⟨_, h, rfl⟩
    exact ⟨lt_size_of_entryAt h, rfl⟩
  · rintro ⟨h, rfl⟩
    exact ⟨_, entryAt_eq_ok.mpr (Array.getElem?_eq_getElem h), rfl⟩

theorem gives_modifyFunction {f : FunctionId} {change : FunctionDecl → FunctionDecl} {v : Unit} :
    (modifyFunction f change).Gives p v q ↔
      f.index < p.functions.size ∧ q = { p with functions := p.functions.modify f.index change } :=
  gives_change

theorem bind_eq_error {e : Fault} {m : Pass α} {f : α → Pass β} : (m >>= f) p = .error e r ↔
    m p = .error e r ∨ ∃ a q, m.Gives p a q ∧ f a q = .error e r := by
  change EStateM.bind m f p = .error e r ↔ _
  unfold EStateM.bind Gives
  cases m p <;> simp

theorem lift_eq_error {e : Fault} {x : Checked α} :
    (liftM x : Pass α) p = .error e q ↔ x = .error e ∧ q = p := by
  cases x with
  | ok a =>
    change EStateM.Result.ok a p = _ ↔ _
    simp
  | error e' =>
    change EStateM.Result.error e' p = _ ↔ _
    simp [eq_comm]

theorem ask_eq_error {e : Fault} {query : Program → Checked α} :
    ask query p = .error e q ↔ query p = .error e ∧ q = p := lift_eq_error

theorem forM_eq_error {e : Fault} {m : α → Pass PUnit} (xs : List α) :
    ∀ {p}, xs.forM m p = .error e q → ∃ pre x post r, xs = pre ++ x :: post ∧
      (pre.forM m).Gives p () r ∧ m x r = .error e q := by
  induction xs with
  | nil => nofun
  | cons x rest ih =>
    intro p h
    rcases bind_eq_error.mp h with h | ⟨_, r, hx, h⟩
    · exact ⟨[], x, rest, p, rfl, gives_pure.mpr ⟨rfl, rfl⟩, h⟩
    · obtain ⟨pre, y, post, s, rfl, hpre, hy⟩ := ih h
      exact ⟨x :: pre, y, post, s, rfl, gives_bind.mpr ⟨_, r, hx, hpre⟩, hy⟩

theorem forM_again {m : α → Pass Unit} (xs : List α) (h : ∀ x ∈ xs, (m x).Gives p () p) :
    (xs.forM m).Gives p () p := by
  induction xs with
  | nil => exact gives_pure.mpr ⟨rfl, rfl⟩
  | cons x xs ih =>
    exact gives_bind.mpr ⟨(), p, h x (.head _), ih fun y hy => h y (.tail _ hy)⟩

end Pass

/-! Loops go through lists that are split where the next step is. -/

theorem notMem_of_nodup {α : Type} {pre post : List α} {x : α} (h : (pre ++ x :: post).Nodup) :
    x ∉ pre := fun hm => (List.nodup_append.mp h).2.2 x hm x (.head _) rfl

theorem notMem_before {α β : Type} {g : α → β} {xs pre post : List α} {x : α} (h : (xs.map g).Nodup)
    (hsplit : xs = pre ++ x :: post) : g x ∉ pre.map g := by
  rw [hsplit, List.map_append, List.map_cons] at h
  exact notMem_of_nodup h

end StackBackend
