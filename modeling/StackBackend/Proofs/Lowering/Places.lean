import StackBackend.Proofs.Lowering.Operands
import StackBackend.Proofs.Lowering.NeatExpr

/-! Where lowering puts code. A place is a label and a position in its code; lowering
goes on at the place where the code of its current label ends. What has been put
somewhere stays there. -/

namespace StackBackend

open Lower List

variable {α β : Type} {s t u : LowerState} {l x b : BlockId} {i : Inst} {P : BlockId × Nat}
variable {d : Draft} {f : α → Lower β} {is : List Inst} {m : Lower α} {v : Unit}

/-- A label and a position in its code. -/
abbrev Place := BlockId × Nat

def Draft.place (d : Draft) : Option Place :=
  d.current.map fun n => (⟨n⟩, (d.code ⟨n⟩).length)

theorem Draft.place_eq_some :
    d.place = some P ↔ d.current = some P.1.index ∧ P.2 = (d.code P.1).length := by
  unfold place
  cases d.current with
  | none => simp
  | some n =>
    simp only [Option.map_some, Option.some.injEq]
    constructor
    · rintro rfl; exact ⟨rfl, rfl⟩
    · rintro ⟨rfl, h⟩; exact Prod.ext rfl h.symm

/-- The label has been handed out and not started. -/
def Draft.Fresh (d : Draft) (l : BlockId) : Prop :=
  l.index < d.labels.size ∧ d.isStarted l = false

namespace LowerState

def Laid (s : LowerState) (P : Place) (i : Inst) : Prop := (s.draft.code P.1)[P.2]? = some i

/-- What the first state has is still there in the second. -/
structure Extends (s t : LowerState) : Prop where
  size : s.draft.labels.size ≤ t.draft.labels.size
  code : ∀ l, s.draft.code l <+: t.draft.code l
  referenced : ∀ l, s.draft.isReferenced l = true → t.draft.isReferenced l = true
  strings : s.strings.toList <+: t.strings.toList

namespace Extends

theorem refl (s : LowerState) : s.Extends s :=
  ⟨le_rfl, fun _ => prefix_rfl, fun _ h => h, prefix_rfl⟩

theorem trans (h : s.Extends t) (h' : t.Extends u) : s.Extends u where
  size := h.size.trans h'.size
  code l := (h.code l).trans (h'.code l)
  referenced l hl := h'.referenced l (h.referenced l hl)
  strings := h.strings.trans h'.strings

theorem laid (h : s.Extends t) (hi : s.Laid P i) : t.Laid P i := by
  obtain ⟨rest, hrest⟩ := h.code P.1
  have hlt : P.2 < (s.draft.code P.1).length := (List.getElem?_eq_some_iff.mp hi).1
  rw [Laid, ← hrest, List.getElem?_append_left hlt]
  exact hi

theorem of_resume (h : (Lower.resume l).Gives s v t) : s.Extends t := by
  rw [gives_resume.mp h]
  exact ⟨le_rfl, fun _ => prefix_rfl, fun _ h => h, prefix_rfl⟩

end Extends

/-- A stretch of lowering that starts the given labels and may start others it hands
out itself. -/
structure Forward (started : List BlockId) (s t : LowerState) : Prop where
  wf : t.draft.WF
  extended : s.Extends t
  fresh : ∀ x, x ∉ started → s.draft.Fresh x → t.draft.Fresh x

namespace Forward

variable {starts starts' : List BlockId}

theorem refl (hs : s.draft.WF) : Forward [] s s := ⟨hs, .refl s, fun _ _ h => h⟩

theorem trans (h : Forward starts s t) (h' : Forward starts' t u) :
    Forward (starts ++ starts') s u where
  wf := h'.wf
  extended := h.extended.trans h'.extended
  fresh x hx hf := by
    rw [mem_append, not_or] at hx
    exact h'.fresh x hx.2 (h.fresh x hx.1 hf)

theorem kept (h : Forward [] s t) (hx : s.draft.Fresh x) : t.draft.Fresh x :=
  h.fresh x not_mem_nil hx

theorem kept_of_ne (h : Forward [l] s t) (hx : s.draft.Fresh x) (hne : x ≠ l) :
    t.draft.Fresh x :=
  h.fresh x (by simpa using hne) hx

theorem of_label (h : Lower.label.Gives s l t) (hs : s.draft.WF) :
    Forward [] s t ∧ t.draft.Fresh l ∧ t.draft.place = s.draft.place ∧
      ∀ x, x.index < s.draft.labels.size → x ≠ l := by
  obtain ⟨rfl, rfl⟩ := gives_label.mp h
  refine ⟨⟨hs.label, ⟨by simp, by simp, by simp, prefix_rfl⟩, fun x _ hx => ?_⟩, ?_, ?_, ?_⟩
  · exact ⟨by rw [Draft.size_label]; exact Nat.lt_succ_of_lt hx.1, by simpa using hx.2⟩
  · refine ⟨by simp, ?_⟩
    rw [Draft.isStarted_label]
    by_contra hn
    exact absurd (Draft.lt_size_of_isStarted (Bool.not_eq_false _ ▸ hn)) (by simp)
  · simp [Draft.place]
  · rintro x hx rfl
    exact hx.false

theorem laid_of_adds (ha : s.draft.Adds i d) (hP : s.draft.place = some P) :
    LowerState.Laid { s with draft := d } P i := by
  obtain ⟨hc, hlen⟩ := Draft.place_eq_some.mp hP
  rw [Laid, ha.code, if_pos hc, hlen]
  exact List.getElem?_concat_length

theorem extends_of_adds (ha : s.draft.Adds i d)
    (href : ∀ l, s.draft.isReferenced l = true → d.isReferenced l = true) :
    s.Extends { s with draft := d } where
  size := Nat.le_of_eq ha.size.symm
  code l := by
    rw [ha.code]
    split
    · exact prefix_append _ _
    · exact prefix_rfl
  referenced := href
  strings := prefix_rfl

theorem of_emit (h : (Lower.emit i).Gives s v t) (hs : s.draft.WF)
    (hi : i.isTerminator = false) (hP : s.draft.place = some P) :
    Forward [] s t ∧ t.Laid P i ∧ t.draft.place = some (P.1, P.2 + 1) := by
  rw [gives_emit.mp h]
  have ha := hs.adds_emit i
  refine ⟨⟨hs.emit hi, extends_of_adds ha (by simp), fun x _ hx => ?_⟩, laid_of_adds ha hP, ?_⟩
  · exact ⟨by rw [Draft.size_emit]; exact hx.1, by rw [Draft.isStarted_emit]; exact hx.2⟩
  · obtain ⟨hc, hlen⟩ := Draft.place_eq_some.mp hP
    rw [Draft.place_eq_some, Draft.current_emit, ha.code, if_pos hc, length_append, hlen]
    exact ⟨hc, rfl⟩

theorem of_emitAll (hi : ∀ i ∈ is, i.isTerminator = false) :
    ∀ {s P}, (Lower.emitAll is).Gives s v t → s.draft.WF → s.draft.place = some P →
      Forward [] s t ∧ t.draft.place = some (P.1, P.2 + is.length) := by
  induction is with
  | nil =>
    intro s P h hs hP
    obtain rfl := gives_emitAll_nil.mp h
    exact ⟨.refl hs, hP⟩
  | cons i rest ih =>
    intro s P h hs hP
    obtain ⟨_, s1, h1, h2⟩ := gives_bind.mp
      (show (Lower.emit i >>= fun _ => Lower.emitAll rest).Gives s v t from h)
    obtain ⟨f1, _, place1⟩ := of_emit h1 hs (hi i (.head _)) hP
    obtain ⟨f2, place2⟩ := ih (fun j hj => hi j (mem_cons_of_mem i hj)) h2 f1.wf place1
    refine ⟨f1.trans f2, ?_⟩
    rw [place2, length_cons, Nat.add_assoc, Nat.add_comm 1]

theorem of_terminate (h : (Lower.terminate i).Gives s v t) (hs : s.draft.WF)
    (hi : ∀ t ∈ i.successors, t.index < s.draft.labels.size) :
    Forward [] s t ∧ t.draft.current = none ∧
      ∀ P, s.draft.place = some P →
        t.Laid P i ∧ ∀ l ∈ i.successors, t.draft.isReferenced l = true := by
  rw [gives_terminate.mp h]
  have ha := hs.adds_terminate i
  have href := fun l => (Draft.isReferenced_terminate s.draft i l).mpr
  refine ⟨⟨hs.terminate hi, extends_of_adds ha fun l hl => href l (.inl hl), fun x _ hx => ?_⟩,
    Draft.current_terminate _ _, fun P hP => ⟨laid_of_adds ha hP, fun l hl => ?_⟩⟩
  · exact ⟨by rw [Draft.size_terminate]; exact hx.1, by rw [Draft.isStarted_terminate]; exact hx.2⟩
  · refine href l (.inr ⟨?_, hl, hi l hl⟩)
    rw [(Draft.place_eq_some.mp hP).1]
    rfl

theorem of_start {v : Bool} (h : (Lower.start l).Gives s v t) (hs : s.draft.WF)
    (hl : s.draft.Fresh l) :
    Forward [l] s t ∧ v = t.draft.isReferenced l ∧ t.draft.isStarted l = v ∧
      t.draft.code l = [] ∧
      t.draft.place = if t.draft.isReferenced l then some (l, 0) else none := by
  obtain ⟨rfl, rfl⟩ := gives_start.mp h
  have hv : (s.draft.start l).1 = s.draft.isReferenced l := by
    rw [Draft.start_fst, hl.2]; simp
  have hcode := hs.code_of_not_started l hl.2
  refine ⟨⟨hs.start l, ⟨by simp, by simp, by simp, prefix_rfl⟩, fun x hx hf => ?_⟩,
    by rw [Draft.isReferenced_start]; exact hv, ?_, by rw [Draft.code_start]; exact hcode, ?_⟩
  · refine ⟨by rw [Draft.size_start]; exact hf.1, ?_⟩
    have hne : (x == l) = false := by simpa using hx
    rw [Draft.isStarted_start, hf.2, hne]
    rfl
  · rw [Draft.isStarted_start, hl.2]; simp
  · rw [Draft.isReferenced_start, Draft.place, Draft.current_start, hv]
    split
    · simp [hcode]
    · rfl

end Forward

end LowerState

/-! ## Tidy code -/

/-- Lowering that keeps its debts and the strings of the pool. -/
structure Tidy (m : Lower α) : Prop where
  neat : Neat m
  emits : Emits (fun _ => True) m

namespace Tidy

theorem forward {a : α} (hm : Tidy m) (h : m.Gives s a t) (hs : s.draft.WF) :
    LowerState.Forward [] s t := by
  have hg := hm.neat.grows h hs
  refine ⟨(hm.neat.keeps h (.of_wf hs)).wf, ⟨hg.size, hg.code, hg.referenced, hm.emits.pool h⟩,
    fun x _ hx => ?_⟩
  exact ⟨hx.1.trans_le hg.size, by rw [hg.started x hx.1]; exact hx.2⟩

theorem of_quiet (hm : Emits (fun _ => True) m)
    (h : ∀ {s a t}, m.Gives s a t → t = s) : Tidy m where
  neat := ⟨fun hm hs => by rw [h hm]; exact hs⟩
  emits := hm

theorem bind_of (hm : Tidy m) (hf : ∀ a s t, m.Gives s a t → Tidy (f a)) : Tidy (m >>= f)where
  neat := .bind_of hm.neat fun a s t h => (hf a s t h).neat
  emits := .bind_of hm.emits fun a s t h => (hf a s t h).emits

theorem bind (hm : Tidy m) (hf : ∀ a, Tidy (f a)) :
    Tidy (m >>= f) :=
  bind_of hm fun a _ _ _ => hf a

theorem pure (a : α) : Tidy (pure a : Lower α) := ⟨.pure a, .pure a⟩

theorem emit (hi : i.isTerminator = false) : Tidy (Lower.emit i) :=
  ⟨.emit hi, .emit trivial⟩

theorem emitAll (hi : ∀ i ∈ is, i.isTerminator = false) :
    Tidy (Lower.emitAll is) :=
  ⟨.emitAll hi, Emits.composes.emitAll (x := ()) fun i h => ⟨hi i h, trivial⟩⟩

theorem unitIfValue (mode : Mode) : Tidy (Lower.unitIfValue mode) :=
  ⟨.unitIfValue mode, Emits.composes.unitIfValue (x := ()) mode⟩

theorem resumeOrRethrow : Tidy Site.resumeOrRethrow :=
  ⟨.resumeOrRethrow, (Emits.labelled fun _ _ => trivial).loose.resumeOrRethrow (x := ())⟩

end Tidy

end StackBackend
