import StackBackend.Lowering.Function
import StackBackend.Proofs.Program.PassGives

/-! What a step of lowering gives: a result and the state it leaves behind. Code
written with `do` is taken apart by `gives_bind`, and the primitive steps are
rewritten to what they do to the draft and to the string pool. -/

namespace StackBackend.Lower

variable {b : Bool} {i : Inst} {v : Unit} {l : BlockId}

variable {α β : Type} {s t u : LowerState}

/-- The step succeeds, with a result and a new state. -/
def Gives (m : Lower α) (s : LowerState) (a : α) (t : LowerState) : Prop := m s = .ok (a, t)

theorem gives_iff {m : Lower α} {a b : α} (h : m.Gives s a t) : m.Gives s b u ↔ b = a ∧ u = t := by
  constructor
  · intro h'; cases h.symm.trans h'; exact ⟨rfl, rfl⟩
  · rintro ⟨rfl, rfl⟩; exact h

theorem gives_pure {a b : α} : (pure a : Lower α).Gives s b t ↔ b = a ∧ t = s := gives_iff rfl

theorem gives_bind {m : Lower α} {f : α → Lower β} {b : β} :
    (m >>= f).Gives s b u ↔ ∃ a t, m.Gives s a t ∧ (f a).Gives t b u := by
  constructor
  · intro h
    change (m s >>= fun p => f p.1 p.2) = _ at h
    cases hm : m s with
    | error e => rw [hm] at h; cases h
    | ok p => rw [hm] at h; exact ⟨p.1, p.2, hm, h⟩
  · rintro ⟨a, t, hm, hf⟩
    change (m s >>= fun p => f p.1 p.2) = _
    rw [show m s = .ok (a, t) from hm]
    exact hf

theorem gives_lift {x : Checked α} {a : α} :
    (liftM x : Lower α).Gives s a t ↔ x = .ok a ∧ t = s := by
  cases x with
  | error e =>
    constructor
    · intro h; cases h
    · rintro ⟨h, _⟩; cases h
  | ok b =>
    constructor
    · intro h; cases h; exact ⟨rfl, rfl⟩
    · rintro ⟨h, rfl⟩; cases h; rfl

theorem not_gives_stop {e : CompileError} {a : α} : ¬ (stop e).Gives s a t := by
  intro h; cases h

theorem gives_draft {f : Draft → α × Draft} {a : α} :
    (draft f).Gives s a t ↔ a = (f s.draft).1 ∧ t = { s with draft := (f s.draft).2 } :=
  gives_iff rfl

theorem gives_emit : (emit i).Gives s v t ↔ t = { s with draft := s.draft.emit i } := by
  rw [emit, gives_draft]; simp

theorem gives_terminate :
    (terminate i).Gives s v t ↔ t = { s with draft := s.draft.terminate i } := by
  rw [terminate, gives_draft]; simp

theorem gives_label :
    label.Gives s l t ↔ l = ⟨s.draft.labels.size⟩ ∧ t = { s with draft := s.draft.label.2 } := by
  rw [label, gives_draft]; rfl

theorem gives_start : (start l).Gives s b t ↔
      b = (s.draft.start l).1 ∧ t = { s with draft := (s.draft.start l).2 } := by
  rw [start, gives_draft]

theorem gives_resume : (resume l).Gives s v t ↔ t = { s with draft := s.draft.resume l } := by
  rw [resume, gives_draft]; simp

theorem gives_isReachable : isReachable.Gives s b t ↔ b = s.draft.isReachable ∧ t = s :=
  gives_iff rfl

theorem gives_isReferenced : (isReferenced l).Gives s b t ↔ b = s.draft.isReferenced l ∧ t = s :=
  gives_iff rfl

theorem gives_startThen {m : Lower Unit} : (startThen l m).Gives s v t ↔
      if (s.draft.start l).1 then m.Gives { s with draft := (s.draft.start l).2 } v t
      else t = { s with draft := (s.draft.start l).2 } := by
  simp only [startThen, gives_bind, gives_start]
  constructor
  · rintro ⟨b, u, ⟨rfl, rfl⟩, h⟩
    split at h <;> rename_i hb
    · rwa [if_pos hb]
    · rw [if_neg hb]; exact (gives_pure.mp h).2
  · intro h
    refine ⟨_, _, ⟨rfl, rfl⟩, ?_⟩
    split at h <;> rename_i hb
    · rwa [if_pos hb]
    · rw [if_neg hb]; exact gives_pure.mpr ⟨rfl, h⟩

theorem gives_emitAll_nil : (emitAll []).Gives s v t ↔ t = s := by
  simp [emitAll, gives_pure]

end StackBackend.Lower

namespace StackBackend.Site

variable {α : Type} {s t : LowerState}

theorem not_gives_fail {site : Site} {cause : LoweringCause} {a : α} :
    ¬ (site.fail cause : Lower α).Gives s a t :=
  Lower.not_gives_stop

theorem gives_orFail {site : Site} {x : Option α} {cause : LoweringCause} {a : α} :
    (site.orFail x cause).Gives s a t ↔ x = some a ∧ t = s := by
  cases x with
  | none => exact ⟨fun h => (not_gives_fail h).elim, fun h => by cases h.1⟩
  | some b =>
    rw [orFail, Lower.gives_pure]
    constructor
    · rintro ⟨rfl, rfl⟩; exact ⟨rfl, rfl⟩
    · rintro ⟨h, rfl⟩; cases h; exact ⟨rfl, rfl⟩

/-- The slot that code uses for a parameter or local: the last one it was given. -/
def slotOf? (slots : List LocalSlot) (d : DefnId) : Option Int :=
  (slots.reverse.find? (·.defn = d)).map LocalSlot.slot

theorem gives_slot {site : Site} {d : DefnId} {i : Int} :
    (site.slot d).Gives s i t ↔ slotOf? site.slots d = some i ∧ t = s := by
  unfold slot slotOf?
  cases site.slots.reverse.find? (·.defn = d) with
  | some l =>
    rw [Lower.gives_pure]
    constructor
    · rintro ⟨rfl, rfl⟩; exact ⟨rfl, rfl⟩
    · rintro ⟨h, rfl⟩; cases h; exact ⟨rfl, rfl⟩
  | none =>
    constructor
    · intro h
      simp only [Lower.gives_bind] at h
      obtain ⟨_, _, _, h⟩ := h
      exact (Lower.not_gives_stop h).elim
    · rintro ⟨h, _⟩; cases h

theorem gives_builtinSlot {site : Site} {c : ClassId} {method : FunctionId} {slot : Nat}
    (h : (site.builtinSlot c method).Gives s slot t) :
    t = s ∧ slotIn? site.program method c = .ok (some slot) := by
  unfold builtinSlot at h
  simp only [Lower.gives_bind, Lower.gives_lift] at h
  obtain ⟨found, _, ⟨hfound, rfl⟩, h⟩ := h
  split at h
  · obtain ⟨rfl, rfl⟩ := Lower.gives_pure.mp h
    exact ⟨rfl, hfound⟩
  · simp only [Lower.gives_bind] at h
    obtain ⟨_, _, _, h⟩ := h
    exact (not_gives_fail h).elim

theorem gives_dispatch {site : Site} {receiver : Ty} {method : FunctionId} {argc : Nat} {i : Inst}
    (h : (site.dispatch receiver method argc).Gives s i t) :
    t = s ∧ (i = .call method ∨ ∃ slot, i = .callVirtual (argc + 1) slot) := by
  unfold dispatch at h
  simp only [Lower.gives_bind, Lower.gives_lift] at h
  obtain ⟨target, _, ⟨_, rfl⟩, h⟩ := h
  split at h
  · obtain ⟨rfl, rfl⟩ := Lower.gives_pure.mp h
    exact ⟨rfl, .inl rfl⟩
  · simp only [Lower.gives_bind, Lower.gives_lift] at h
    obtain ⟨isFinal, _, ⟨_, rfl⟩, h⟩ := h
    split at h
    · obtain ⟨rfl, rfl⟩ := Lower.gives_pure.mp h
      exact ⟨rfl, .inl rfl⟩
    · simp only [Lower.gives_bind, Lower.gives_lift, gives_orFail, Lower.gives_pure] at h
      obtain ⟨_, _, ⟨_, rfl⟩, slot, _, ⟨_, rfl⟩, rfl, rfl⟩ := h
      exact ⟨rfl, .inr ⟨slot, rfl⟩⟩

end StackBackend.Site
