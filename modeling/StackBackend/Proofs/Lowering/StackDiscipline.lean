import StackBackend.Proofs.Lowering.Places

/-! What is known of the stack before the code runs. A discipline keeps a fact for each point of
the code: how many values there are, or which regions are open. Each way out of a block has to
arrive with the fact that the target starts from. Labels get their facts when they are handed out,
so that whatever branches to them later can be checked against them. -/

namespace StackBackend

open Lower
open List (prefix_rfl prefix_append)

namespace Discipline

variable {F : Type} (D : Discipline F)

inductive Moves : Inst → F → F → Prop where
  | plain {i : Inst} {n k : Nat} {x : F} (counts : i.counts? = some (n, k)) :
    Moves i (D.raise^[n] x) (D.raise^[k] x)
  | applied {i : Inst} {n : Nat} {x : F} (applied : i.isApplied = true) (takes : D.takes i n) :
    Moves i (D.raise^[n] x) (D.raise x)

/-- Code that does not end a block. -/
inductive Leads : F → List Inst → F → Prop where
  | nil (x : F) : Leads x [] x
  | cons {i : Inst} {is : List Inst} {x y z : F} (first : D.Moves i x y) (rest : Leads y is z) :
    Leads x (i :: is) z

/-- The ends of blocks, where the facts that other blocks start from are given. -/
inductive Leaps (frames : List F) : Inst → F → Prop where
  | branch {b : BlockId} {x : F} (target : frames[b.index]? = some x) : Leaps frames (.branch b) x
  | branchIf {a b : BlockId} {x : F} (onTrue : frames[a.index]? = some x)
      (onFalse : frames[b.index]? = some x) : Leaps frames (.branchIf a b) (D.raise x)
  | pushTry {b h : BlockId} {x : F} (body : frames[b.index]? = some (D.guard h x))
      (handler : frames[h.index]? = some (D.raise x)) : Leaps frames (.pushTry b h) x
  | popTry {b h : BlockId} {x : F} (target : frames[b.index]? = some x) :
    Leaps frames (.popTry b) (D.guard h x)
  | ret {x : F} (base : D.IsBase x) : Leaps frames .ret (D.raise x)
  | throw {x : F} : Leaps frames .throw (D.raise x)

/-- Code that ends a block. -/
def Checks (frames : List F) (x : F) (code : List Inst) : Prop :=
  ∃ before last y, code = before ++ [last] ∧ D.Leads x before y ∧ D.Leaps frames last y

variable {D} {frames frames' known known' : List F} {i : Inst} {x y z w : F} {code : List Inst}

theorem getElem?_of_isPrefix {n : Nat} (h : frames <+: frames') (hx : frames[n]? = some x) :
    frames'[n]? = some x := by
  obtain ⟨rest, rfl⟩ := h
  rw [List.getElem?_append_left (List.getElem?_eq_some_iff.mp hx).1, hx]

theorem Moves.push (h : i.counts? = some (0, 1)) : D.Moves i x (D.raise x) := .plain h

theorem Moves.pop (h : i.counts? = some (1, 0)) : D.Moves i (D.raise x) x := .plain h

theorem Moves.combine (h : i.counts? = some (2, 1)) :
    D.Moves i (D.raise (D.raise x)) (D.raise x) :=
  .plain h

theorem Moves.isTerminator (h : D.Moves i x y) : i.isTerminator = false := by
  cases h with
  | plain hcounts => exact Inst.isTerminator_of_counts hcounts
  | applied happlied _ => cases i <;> first | rfl | cases happlied

theorem Leads.snoc (h : D.Leads x code y) (hi : D.Moves i y z) : D.Leads x (code ++ [i]) z := by
  induction h with
  | nil x => exact .cons hi (.nil z)
  | cons first _ ih => exact .cons first (ih hi)

theorem Leaps.mono (h : D.Leaps frames i x) (hf : frames <+: frames') : D.Leaps frames' i x := by
  cases h with
  | branch htarget => exact .branch (getElem?_of_isPrefix hf htarget)
  | branchIf htrue hfalse =>
    exact .branchIf (getElem?_of_isPrefix hf htrue) (getElem?_of_isPrefix hf hfalse)
  | pushTry hbody hhandler =>
    exact .pushTry (getElem?_of_isPrefix hf hbody) (getElem?_of_isPrefix hf hhandler)
  | popTry htarget => exact .popTry (getElem?_of_isPrefix hf htarget)
  | ret hbase => exact .ret hbase
  | throw => exact .throw

theorem Leaps.lt_length (h : D.Leaps frames i x) : ∀ l ∈ i.successors, l.index < frames.length := by
  have hlt : ∀ {n : Nat} {y : F}, frames[n]? = some y → n < frames.length :=
    fun hy => (List.getElem?_eq_some_iff.mp hy).1
  cases h with
  | branch htarget => simpa [Inst.successors] using hlt htarget
  | branchIf htrue hfalse => simpa [Inst.successors] using ⟨hlt htrue, hlt hfalse⟩
  | pushTry hbody hhandler => simpa [Inst.successors] using ⟨hlt hbody, hlt hhandler⟩
  | popTry htarget => simpa [Inst.successors] using hlt htarget
  | ret _ => simp [Inst.successors]
  | throw => simp [Inst.successors]

theorem Checks.mono (h : D.Checks frames x code) (hf : frames <+: frames') :
    D.Checks frames' x code := by
  obtain ⟨before, last, y, hcode, hbefore, hlast⟩ := h
  exact ⟨before, last, y, hcode, hbefore, hlast.mono hf⟩

/-! ## Drafts -/

/-- The code of a draft agrees with the facts that its labels start from, and where code is
added the given fact holds. -/
structure Fits (D : Discipline F) (frames : List F) (d : Draft) (here : F) : Prop where
  wf : d.WF
  size : frames.length = d.labels.size
  current : ∀ l x, d.current = some l.index → frames[l.index]? = some x → D.Leads x (d.code l) here
  others : ∀ l x, d.current ≠ some l.index → frames[l.index]? = some x →
    (∃ y, D.Leads x (d.code l) y) ∨ D.Checks frames x (d.code l)

namespace Fits

variable {d : Draft} {l : BlockId}

theorem free (h : D.Fits frames d x) (hc : d.current = none) (y : F) : D.Fits frames d y where
  wf := h.wf
  size := h.size
  current l _ hl := by
    rw [hc] at hl
    cases hl
  others := h.others

theorem leads_or_checks (h : D.Fits frames d x) (hz : frames[l.index]? = some z) :
    (∃ y, D.Leads z (d.code l) y) ∨ D.Checks frames z (d.code l) := by
  by_cases hl : d.current = some l.index
  · exact .inl ⟨x, h.current l z hl hz⟩
  · exact h.others l z hl hz

theorem emit (h : D.Fits frames d x) (hi : D.Moves i x y) : D.Fits frames (d.emit i) y where
  wf := h.wf.emit hi.isTerminator
  size := by rw [Draft.size_emit, h.size]
  current l z hl hz := by
    rw [Draft.current_emit] at hl
    rw [Draft.code_emit h.wf.currentValid, if_pos hl]
    exact (h.current l z hl hz).snoc hi
  others l z hl hz := by
    rw [Draft.current_emit] at hl
    rw [Draft.code_emit h.wf.currentValid, if_neg hl]
    exact h.others l z hl hz

theorem terminate (h : D.Fits frames d x) (hi : D.Leaps frames i x) (y : F) :
    D.Fits frames (d.terminate i) y where
  wf := h.wf.terminate fun t ht => h.size ▸ hi.lt_length t ht
  size := by rw [Draft.size_terminate, h.size]
  current l z hl _ := by
    rw [Draft.current_terminate] at hl
    cases hl
  others l z _ hz := by
    rw [Draft.code_terminate h.wf.currentValid]
    split
    · rename_i hl
      exact .inr ⟨_, i, x, rfl, h.current l z hl hz, hi⟩
    · rename_i hl
      exact h.others l z hl hz

theorem label (h : D.Fits frames d x) (z : F) : D.Fits (frames ++ [z]) d.label.2 x where
  wf := h.wf.label
  size := by rw [List.length_append, h.size, Draft.size_label]; rfl
  current l w hl hw := by
    have hlt := Draft.lt_size_of_isStarted (h.wf.current_started l.index hl)
    rw [List.getElem?_append_left (h.size.symm ▸ hlt)] at hw
    rw [Draft.code_label]
    exact h.current l w hl hw
  others l w hl hw := by
    rw [Draft.code_label]
    by_cases hlt : l.index < d.labels.size
    · rw [List.getElem?_append_left (h.size.symm ▸ hlt)] at hw
      exact (h.others l w hl hw).imp_right fun hchecks => hchecks.mono (prefix_append ..)
    · have hfresh : d.isStarted l = false := by
        by_contra hstarted
        exact hlt (Draft.lt_size_of_isStarted (Bool.not_eq_false _ ▸ hstarted))
      rw [h.wf.code_of_not_started l hfresh]
      exact .inl ⟨w, .nil w⟩

theorem of_label {s t : LowerState} (h : D.Fits frames s.draft x) (hl : Lower.label.Gives s l t)
    (z : F) : D.Fits (frames ++ [z]) t.draft x ∧ l.index = frames.length ∧
      (frames ++ [z])[l.index]? = some z := by
  obtain ⟨rfl, rfl⟩ := gives_label.mp hl
  refine ⟨h.label z, h.size.symm, ?_⟩
  rw [← h.size]
  exact List.getElem?_concat_length

theorem start (h : D.Fits frames d x) (hl : frames[l.index]? = some z) :
    D.Fits frames (d.start l).2 z where
  wf := h.wf.start l
  size := by rw [Draft.size_start, h.size]
  current l' w hl' hw := by
    rw [Draft.current_start] at hl'
    split at hl'
    · rename_i hstarts
      have hsame : l' = l := Ref.ext_index (Option.some.inj hl').symm
      subst hsame
      cases hl.symm.trans hw
      rw [Draft.start_fst, Bool.and_eq_true, Bool.not_eq_true'] at hstarts
      rw [Draft.code_start, h.wf.code_of_not_started l' hstarts.2]
      exact .nil z
    · cases hl'
  others l' w _ hw := by
    rw [Draft.code_start]
    exact h.leads_or_checks hw

theorem resume (h : D.Fits frames d x) (hl : frames[l.index]? = some z)
    (hcode : d.isStarted l = true → D.Leads z (d.code l) y) : D.Fits frames (d.resume l) y where
  wf := h.wf.resume l
  size := by rw [Draft.labels_resume, h.size]
  current l' w hl' hw := by
    rw [Draft.current_resume] at hl'
    split at hl'
    · rename_i hstarted
      have hsame : l' = l := Ref.ext_index (Option.some.inj hl').symm
      subst hsame
      cases hl.symm.trans hw
      exact hcode (Bool.and_eq_true _ _ ▸ hstarted).1
    · cases hl'
  others l' w _ hw := by
    rw [Draft.code_resume]
    exact h.leads_or_checks hw

end Fits

/-! ## Steps -/

variable {α β : Type}

/-- The step takes code from where one fact holds to where another one does, given the facts
of labels handed out before. It may hand out more of them. -/
structure Carries (D : Discipline F) (known : List F) (m : Lower α) (x y : F) : Prop where
  fits : ∀ {s a t frames}, known <+: frames → m.Gives s a t → D.Fits frames s.draft x →
    ∃ frames', frames <+: frames' ∧ D.Fits frames' t.draft y

namespace Carries

theorem bind_of {m : Lower α} {f : α → Lower β} (hm : D.Carries known m x y)
    (hf : ∀ a s t, m.Gives s a t → D.Carries known (f a) y z) : D.Carries known (m >>= f) x z := by
  refine ⟨fun hk h hs => ?_⟩
  obtain ⟨a, u, h1, h2⟩ := gives_bind.mp h
  obtain ⟨frames1, hf1, hu⟩ := hm.fits hk h1 hs
  obtain ⟨frames2, hf2, ht⟩ := (hf a _ u h1).fits (hk.trans hf1) h2 hu
  exact ⟨frames2, hf1.trans hf2, ht⟩

theorem bind {m : Lower α} {f : α → Lower β} (hm : D.Carries known m x y)
    (hf : ∀ a, D.Carries known (f a) y z) : D.Carries known (m >>= f) x z :=
  bind_of hm fun a _ _ _ => hf a

theorem quiet {m : Lower α} (h : ∀ {s a t}, m.Gives s a t → t.draft = s.draft) :
    D.Carries known m x x :=
  ⟨fun {_ _ _ frames} _ hm hs => ⟨frames, prefix_rfl, by rw [h hm]; exact hs⟩⟩

theorem pure (a : α) : D.Carries known (pure a : Lower α) x x :=
  quiet fun h => by rw [(gives_pure.mp h).2]

theorem lift (q : Checked α) : D.Carries known (liftM q : Lower α) x x :=
  quiet fun h => by rw [(gives_lift.mp h).2]

theorem never {m : Lower α} (h : ∀ {s a t}, ¬ m.Gives s a t) : D.Carries known m x y :=
  ⟨fun _ hm => (h hm).elim⟩

theorem emit (hi : D.Moves i x y) : D.Carries known (Lower.emit i) x y :=
  ⟨fun {_ _ _ frames} _ h hs =>
    ⟨frames, prefix_rfl, by rw [gives_emit.mp h]; exact hs.emit hi⟩⟩

theorem emitAll (hc : D.Leads x code y) : D.Carries known (Lower.emitAll code) x y := by
  induction hc with
  | nil x => exact pure ()
  | cons first _ ih => exact bind (m := Lower.emit _) (emit first) fun _ => ih

theorem terminate (hi : D.Leaps known i x) : D.Carries known (Lower.terminate i) x y :=
  ⟨fun {_ _ _ frames} hk h hs =>
    ⟨frames, prefix_rfl, by rw [gives_terminate.mp h]; exact hs.terminate (hi.mono hk) y⟩⟩

theorem branchIf {a b : BlockId} (ha : known[a.index]? = some x) (hb : known[b.index]? = some x) :
    D.Carries known (Lower.branchIf a b) (D.raise x) y :=
  terminate (.branchIf ha hb)

theorem start {l : BlockId} (hl : known[l.index]? = some z) :
    D.Carries known (Lower.start l) x z := by
  refine ⟨fun {_ _ _ frames} hk h hs => ⟨frames, prefix_rfl, ?_⟩⟩
  rw [(gives_start.mp h).2]
  exact hs.start (getElem?_of_isPrefix hk hl)

theorem startThen {l : BlockId} {m : Lower Unit} (hl : known[l.index]? = some z)
    (hm : D.Carries known m z y) : D.Carries known (Lower.startThen l m) x y := by
  refine ⟨fun {s _ t frames} hk h hs => ?_⟩
  have hstart : D.Fits frames (s.draft.start l).2 z := hs.start (getElem?_of_isPrefix hk hl)
  rw [gives_startThen] at h
  split at h
  · exact hm.fits hk h hstart
  · rename_i hnot
    rw [h]
    refine ⟨frames, prefix_rfl, hstart.free ?_ y⟩
    rw [Draft.current_start, if_neg hnot]

end Carries

end Discipline

end StackBackend
