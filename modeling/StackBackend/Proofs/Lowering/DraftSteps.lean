import StackBackend.Proofs.Lowering.Gives

/-! What each builder step does to a draft, said of three views of a label: its
code, whether it has been started and whether something branches to it. A label
that was never handed out looks like a fresh one, so handing out a label changes
no view. -/

namespace StackBackend.Draft

def code (d : Draft) (l : BlockId) : List Inst := (d.stateOf l).code.toList

def isStarted (d : Draft) (l : BlockId) : Bool := (d.stateOf l).started

variable {d : Draft} {l x : BlockId} {i : Inst}

theorem stateOf_updateLabel (d : Draft) (n : Nat) (f : LabelState → LabelState) (x : BlockId) :
    (d.updateLabel n f).stateOf x =
      if x.index = n ∧ n < d.labels.size then f (d.stateOf x) else d.stateOf x := by
  simp only [updateLabel, stateOf, Array.getD_eq_getD_getElem?, Array.getElem?_modify]
  by_cases hx : x.index = n
  · subst hx
    by_cases hn : x.index < d.labels.size
    · simp [hn]
    · simp [hn]
  · simp [hx, Ne.symm hx]

theorem lt_size_of_isStarted (h : d.isStarted x = true) : x.index < d.labels.size := by
  by_contra hn
  simp [isStarted, stateOf, Array.getD_eq_getD_getElem?, hn, LabelState.fresh] at h

theorem lt_size_of_isReferenced (h : d.isReferenced x = true) : x.index < d.labels.size := by
  by_contra hn
  simp [isReferenced, stateOf, Array.getD_eq_getD_getElem?, hn, LabelState.fresh] at h

/-! ## Handing out a label -/

@[simp] theorem size_label (d : Draft) : d.label.2.labels.size = d.labels.size + 1 := by
  simp [label]

@[simp] theorem current_label (d : Draft) : d.label.2.current = d.current := rfl

@[simp] theorem order_label (d : Draft) : d.label.2.order = d.order := rfl

@[simp] theorem stateOf_label (d : Draft) (x : BlockId) : d.label.2.stateOf x = d.stateOf x := by
  simp only [label, stateOf, Array.getD_eq_getD_getElem?, Array.getElem?_push]
  split <;> rename_i h
  · simp [h]
  · rfl

@[simp] theorem code_label (d : Draft) (x : BlockId) : d.label.2.code x = d.code x := by
  simp [code]

@[simp] theorem isStarted_label (d : Draft) (x : BlockId) :
    d.label.2.isStarted x = d.isStarted x := by
  simp [isStarted]

@[simp] theorem isReferenced_label (d : Draft) (x : BlockId) :
    d.label.2.isReferenced x = d.isReferenced x := by
  simp [isReferenced]

/-! ## Adding an instruction -/

@[simp] theorem size_emit (d : Draft) (i : Inst) : (d.emit i).labels.size = d.labels.size := by
  unfold emit; split <;> simp [append, updateLabel]

@[simp] theorem current_emit (d : Draft) (i : Inst) : (d.emit i).current = d.current := by
  unfold emit; split <;> simp [append, updateLabel, *]

@[simp] theorem order_emit (d : Draft) (i : Inst) : (d.emit i).order = d.order := by
  unfold emit; split <;> rfl

@[simp] theorem isStarted_emit (d : Draft) (i : Inst) (x : BlockId) :
    (d.emit i).isStarted x = d.isStarted x := by
  unfold emit isStarted
  split
  · rw [append, stateOf_updateLabel]; split <;> rfl
  · rfl

@[simp] theorem isReferenced_emit (d : Draft) (i : Inst) (x : BlockId) :
    (d.emit i).isReferenced x = d.isReferenced x := by
  unfold emit isReferenced
  split
  · rw [append, stateOf_updateLabel]; split <;> rfl
  · rfl

theorem code_append (d : Draft) (n : Nat) (i : Inst) (x : BlockId) :
    (d.append n i).code x =
      if x.index = n ∧ n < d.labels.size then d.code x ++ [i] else d.code x := by
  unfold code append
  rw [stateOf_updateLabel]
  split <;> simp

theorem mem_code_append {n : Nat} {j : Inst} (h : j ∈ (d.append n i).code x) :
    j ∈ d.code x ∨ j = i := by
  rw [code_append] at h
  split at h
  · simpa using h
  · exact .inl h

theorem mem_code_emit {j : Inst} (h : j ∈ (d.emit i).code x) : j ∈ d.code x ∨ j = i := by
  unfold emit at h
  split at h
  · exact mem_code_append h
  · exact .inl h

def CurrentValid (d : Draft) : Prop := ∀ n, d.current = some n → n < d.labels.size

theorem code_emit (hd : d.CurrentValid) (i : Inst) (x : BlockId) :
    (d.emit i).code x = if d.current = some x.index then d.code x ++ [i] else d.code x := by
  unfold emit
  split <;> rename_i hc
  · rename_i n
    have hn := hd n hc
    rw [code_append]
    by_cases hx : x.index = n
    · simp [hx, hn, hc]
    · simp [hx, hc, Ne.symm hx]
  · simp [hc]

/-! ## Ending a block -/

theorem stateOf_reference (d : Draft) (l x : BlockId) :
    (d.reference l).stateOf x =
      if x = l ∧ l.index < d.labels.size then { d.stateOf x with referenced := true }
      else d.stateOf x := by
  rw [reference, stateOf_updateLabel]
  have hiff : x.index = l.index ↔ x = l := ⟨Ref.ext_index, fun h => h ▸ rfl⟩
  simp only [hiff]

@[simp] theorem size_reference (d : Draft) (l : BlockId) :
    (d.reference l).labels.size = d.labels.size := by
  simp [reference, updateLabel]

theorem referenceAll_frame (ls : List BlockId) (d : Draft) :
    (ls.foldl reference d).labels.size = d.labels.size ∧
    (ls.foldl reference d).order = d.order ∧ (ls.foldl reference d).current = d.current ∧
    (∀ x, (ls.foldl reference d).code x = d.code x) ∧
    (∀ x, (ls.foldl reference d).isStarted x = d.isStarted x) := by
  induction ls generalizing d with
  | nil => simp
  | cons l rest ih =>
    obtain ⟨hs, ho, hc, hcode, hst⟩ := ih (d.reference l)
    refine ⟨hs.trans (size_reference d l), ho, hc, fun x => ?_, fun x => ?_⟩
    · rw [List.foldl_cons, hcode, code, stateOf_reference]; split <;> rfl
    · rw [List.foldl_cons, hst, isStarted, stateOf_reference]; split <;> rfl

theorem isReferenced_referenceAll (ls : List BlockId) (d : Draft) (x : BlockId) :
    (ls.foldl reference d).isReferenced x = true ↔
      d.isReferenced x = true ∨ x ∈ ls ∧ x.index < d.labels.size := by
  induction ls generalizing d with
  | nil => simp
  | cons l rest ih =>
    rw [List.foldl_cons, ih, size_reference, isReferenced, stateOf_reference]
    by_cases hx : x = l ∧ l.index < d.labels.size
    · rw [if_pos hx]
      obtain ⟨rfl, hlt⟩ := hx
      simp [hlt]
    · rw [if_neg hx]
      simp only [List.mem_cons]
      constructor
      · rintro (h | ⟨h, hlt⟩)
        · exact .inl h
        · exact .inr ⟨.inr h, hlt⟩
      · rintro (h | ⟨rfl | h, hlt⟩)
        · exact .inl h
        · exact absurd ⟨rfl, hlt⟩ hx
        · exact .inr ⟨h, hlt⟩

@[simp] theorem size_terminate (d : Draft) (i : Inst) :
    (d.terminate i).labels.size = d.labels.size := by
  unfold terminate
  split
  · simp [append, updateLabel, (referenceAll_frame i.successors d).1]
  · rfl

@[simp] theorem current_terminate (d : Draft) (i : Inst) : (d.terminate i).current = none := by
  unfold terminate
  split
  · rfl
  · assumption

@[simp] theorem order_terminate (d : Draft) (i : Inst) : (d.terminate i).order = d.order := by
  unfold terminate
  split
  · simp [append, updateLabel, (referenceAll_frame i.successors d).2.1]
  · rfl

@[simp] theorem isStarted_terminate (d : Draft) (i : Inst) (x : BlockId) :
    (d.terminate i).isStarted x = d.isStarted x := by
  unfold terminate
  split
  · rename_i n _
    have h := (referenceAll_frame i.successors d).2.2.2.2 x
    rw [← h]
    change ((i.successors.foldl reference d).append n i).isStarted x = _
    rw [append, isStarted, stateOf_updateLabel, isStarted]
    split <;> rfl
  · rfl

theorem code_terminate (hd : d.CurrentValid) (i : Inst) (x : BlockId) :
    (d.terminate i).code x = if d.current = some x.index then d.code x ++ [i] else d.code x := by
  unfold terminate
  split <;> rename_i hc
  · rename_i n
    obtain ⟨hs, _, _, hcode, _⟩ := referenceAll_frame i.successors d
    have hn := hd n hc
    change ((i.successors.foldl reference d).append n i).code x = _
    rw [code_append, hs, hcode]
    by_cases hx : x.index = n
    · simp [hx, hn, hc]
    · simp [hx, hc, Ne.symm hx]
  · simp [hc]

theorem mem_code_terminate {j : Inst} (h : j ∈ (d.terminate i).code x) :
    j ∈ d.code x ∨ j = i := by
  unfold terminate at h
  split at h
  · rw [← (referenceAll_frame i.successors d).2.2.2.1 x]
    exact mem_code_append h
  · exact .inl h

theorem isReferenced_terminate (d : Draft) (i : Inst) (x : BlockId) :
    (d.terminate i).isReferenced x = true ↔ d.isReferenced x = true ∨
      (d.current.isSome ∧ x ∈ i.successors ∧ x.index < d.labels.size) := by
  unfold terminate
  split <;> rename_i hc
  · rename_i n
    have h : (({ (i.successors.foldl reference d).append n i with current := none } :
        Draft).isReferenced x = true) ↔ (i.successors.foldl reference d).isReferenced x = true := by
      change ((i.successors.foldl reference d).append n i).isReferenced x = true ↔ _
      rw [append, isReferenced, stateOf_updateLabel, isReferenced]
      split <;> rfl
    rw [h, isReferenced_referenceAll]
    simp [hc]
  · simp [hc]

/-! ## Going on at a label -/

theorem start_fst (d : Draft) (l : BlockId) :
    (d.start l).1 = (d.isReferenced l && !d.isStarted l) := by
  unfold start isReferenced isStarted
  dsimp only
  split <;> rename_i h
  · simpa using h
  · simpa using h

theorem start_of_not (h : ¬ (d.start l).1 = true) : (d.start l).2 = { d with current := none } := by
  unfold start at h ⊢
  dsimp only at h ⊢
  split at h
  · exact absurd rfl h
  · rename_i hn; rw [if_neg hn]

@[simp] theorem size_start (d : Draft) (l : BlockId) :
    (d.start l).2.labels.size = d.labels.size := by
  unfold start
  dsimp only
  split <;> simp [updateLabel]

theorem current_start (d : Draft) (l : BlockId) :
    (d.start l).2.current = if (d.start l).1 then some l.index else none := by
  unfold start
  dsimp only
  split <;> simp

theorem order_start (d : Draft) (l : BlockId) :
    (d.start l).2.order = if (d.start l).1 then d.order.push l.index else d.order := by
  unfold start
  dsimp only
  split <;> simp [updateLabel]

theorem stateOf_start (d : Draft) (l x : BlockId) :
    (d.start l).2.stateOf x =
      if x = l ∧ (d.start l).1 = true then { d.stateOf x with started := true }
      else d.stateOf x := by
  unfold start
  dsimp only
  split <;> rename_i h
  · have hr : d.isReferenced l = true := by
      simp only [Bool.and_eq_true] at h; exact h.1
    have hl := lt_size_of_isReferenced hr
    have hiff : x.index = l.index ↔ x = l := ⟨Ref.ext_index, fun h => h ▸ rfl⟩
    change (d.updateLabel l.index _).stateOf x = _
    rw [stateOf_updateLabel]
    simp [hl, hiff]
  · simp [stateOf]

@[simp] theorem code_start (d : Draft) (l x : BlockId) : (d.start l).2.code x = d.code x := by
  rw [code, stateOf_start]; split <;> rfl

@[simp] theorem isReferenced_start (d : Draft) (l x : BlockId) :
    (d.start l).2.isReferenced x = d.isReferenced x := by
  rw [isReferenced, stateOf_start]; split <;> rfl

theorem isStarted_start (d : Draft) (l x : BlockId) :
    (d.start l).2.isStarted x = (d.isStarted x || (x == l && (d.start l).1)) := by
  rw [isStarted, stateOf_start]
  by_cases h : x = l ∧ (d.start l).1 = true
  · rw [if_pos h]; simp [h]
  · rw [if_neg h]
    by_cases hx : x = l
    · simp only [hx, true_and, Bool.not_eq_true] at h
      simp [hx, h, isStarted]
    · simp [hx, isStarted]

@[simp] theorem labels_resume (d : Draft) (l : BlockId) : (d.resume l).labels = d.labels := rfl

@[simp] theorem code_resume (d : Draft) (l x : BlockId) : (d.resume l).code x = d.code x := rfl

@[simp] theorem isStarted_resume (d : Draft) (l x : BlockId) :
    (d.resume l).isStarted x = d.isStarted x := rfl

/-- The code at a label has been ended. -/
def isEnded (d : Draft) (l : BlockId) : Bool :=
  ((d.code l).getLast?.map Inst.isTerminator).getD false

theorem current_resume (d : Draft) (l : BlockId) :
    (d.resume l).current = if d.isStarted l && !d.isEnded l then some l.index else none := by
  have hopen : LabelState.isOpen (d.stateOf l) = !d.isEnded l := by
    unfold LabelState.isOpen isEnded code
    rw [Array.getLast?_toList]
    cases (d.stateOf l).code.back? <;> rfl
  unfold resume
  dsimp only
  rw [hopen]
  rfl

end StackBackend.Draft
