import Mathlib.Data.Set.Insert
import StackBackend.Proofs.Lowering.DraftSteps

/-! What holds of a draft throughout lowering. `WF` is what a draft is like at any
moment. `Grows` compares it with an earlier draft: code is only added, and a label
that was there before is left alone unless it was the current one. `Built` adds the
two debts that lowering may run up: labels that are branched to and not yet started,
and blocks that were left open to be resumed. -/

namespace StackBackend

open List

theorem Inst.successors_of_not_terminator {i : Inst} (h : i.isTerminator = Bool.false) :
    i.successors = [] := by
  cases i <;> first | rfl | cases h

theorem Inst.mapTargets_of_not_terminator {i : Inst} {f : BlockId → BlockId}
    (h : i.isTerminator = Bool.false) : i.mapTargets f = i := by
  cases i <;> first | rfl | cases h

namespace Draft

variable {d0 d : Draft} {l : BlockId} {i : Inst}

def entry : BlockId := ⟨0⟩

/-- Code at `l` branches to `t`. -/
def Targets (d : Draft) (l t : BlockId) : Prop := ∃ i ∈ d.code l, t ∈ i.successors

structure WF (d : Draft) : Prop where
  entry_started : d.isStarted entry = true
  current_started : ∀ n, d.current = some n → d.isStarted ⟨n⟩ = true
  current_open : ∀ n, d.current = some n → ∀ i ∈ d.code ⟨n⟩, i.isTerminator = false
  mem_order : ∀ n, n ∈ d.order.toList ↔ d.isStarted ⟨n⟩ = true
  nodup_order : d.order.toList.Nodup
  code_of_not_started : ∀ l, d.isStarted l = false → d.code l = []
  early : ∀ l, ∀ i ∈ (d.code l).dropLast, i.isTerminator = false
  referenced_of_targets : ∀ l t, d.Targets l t → d.isReferenced t = true
  targets_of_referenced : ∀ t, d.isReferenced t = true → t = entry ∨ ∃ l, d.Targets l t
  /-- A block after the first is the target of one before it. -/
  entered : ∀ pre t post, d.order.toList = pre ++ t :: post →
    (pre = [] ∧ t = 0) ∨ ∃ n ∈ pre, d.Targets ⟨n⟩ ⟨t⟩

theorem WF.currentValid (hd : d.WF) : d.CurrentValid :=
  fun n hn => lt_size_of_isStarted (hd.current_started n hn)

/-- Adding an instruction to the current block, as `emit` and `terminate` do. -/
structure Adds (d : Draft) (i : Inst) (d' : Draft) : Prop where
  size : d'.labels.size = d.labels.size
  order : d'.order = d.order
  started : ∀ l, d'.isStarted l = d.isStarted l
  code : ∀ l, d'.code l = if d.current = some l.index then d.code l ++ [i] else d.code l

theorem WF.adds_emit (hd : d.WF) (i : Inst) : Adds d i (d.emit i) where
  size := size_emit d i
  order := order_emit d i
  started := isStarted_emit d i
  code := code_emit hd.currentValid i

theorem WF.adds_terminate (hd : d.WF) (i : Inst) : Adds d i (d.terminate i) where
  size := size_terminate d i
  order := order_terminate d i
  started := isStarted_terminate d i
  code := code_terminate hd.currentValid i

namespace Adds

variable {d' : Draft}

theorem targets_mono (h : Adds d i d') {l t : BlockId} (ht : d.Targets l t) : d'.Targets l t := by
  obtain ⟨j, hj, ht⟩ := ht
  refine ⟨j, ?_, ht⟩
  rw [h.code]
  split
  · exact mem_append_left _ hj
  · exact hj

theorem targets (h : Adds d i d') {l t : BlockId} (ht : d'.Targets l t) :
    d.Targets l t ∨ d.current = some l.index ∧ t ∈ i.successors := by
  obtain ⟨j, hj, ht⟩ := ht
  rw [h.code] at hj
  split at hj <;> rename_i hc
  · rcases mem_append.mp hj with hj | hj
    · exact .inl ⟨j, hj, ht⟩
    · rw [mem_singleton] at hj
      exact .inr ⟨hc, hj ▸ ht⟩
  · exact .inl ⟨j, hj, ht⟩

theorem early (h : Adds d i d') (hd : d.WF) (l : BlockId) :
    ∀ j ∈ (d'.code l).dropLast, j.isTerminator = false := by
  intro j hj
  rw [h.code] at hj
  split at hj <;> rename_i hc
  · rw [List.dropLast_concat] at hj
    exact hd.current_open _ hc j hj
  · exact hd.early l j hj

theorem wf (h : Adds d i d') (hd : d.WF)
    (hcur : ∀ n, d'.current = some n → d.current = some n ∧ i.isTerminator = false)
    (href : ∀ t, d'.isReferenced t = true ↔
      d.isReferenced t = true ∨ d.current.isSome ∧ t ∈ i.successors) : d'.WF where
  entry_started := by rw [h.started]; exact hd.entry_started
  current_started n hn := by rw [h.started]; exact hd.current_started n (hcur n hn).1
  current_open n hn j hj := by
    obtain ⟨hc, hi⟩ := hcur n hn
    rw [h.code, if_pos hc] at hj
    rcases mem_append.mp hj with hj | hj
    · exact hd.current_open n hc j hj
    · rw [mem_singleton] at hj; rw [hj]; exact hi
  mem_order n := by rw [h.order, h.started]; exact hd.mem_order n
  nodup_order := by rw [h.order]; exact hd.nodup_order
  code_of_not_started l hl := by
    rw [h.started] at hl
    have hc : d.current ≠ some l.index := by
      intro hc
      rw [hd.current_started _ hc] at hl
      cases hl
    rw [h.code, if_neg hc]
    exact hd.code_of_not_started l hl
  early := h.early hd
  referenced_of_targets l t ht := by
    rw [href]
    rcases h.targets ht with ht | ⟨hc, ht⟩
    · exact .inl (hd.referenced_of_targets l t ht)
    · exact .inr ⟨by rw [hc]; rfl, ht⟩
  targets_of_referenced t ht := by
    rcases (href t).mp ht with ht | ⟨hc, ht⟩
    · rcases hd.targets_of_referenced t ht with ht | ⟨l, ht⟩
      · exact .inl ht
      · exact .inr ⟨l, h.targets_mono ht⟩
    · obtain ⟨n, hn⟩ := Option.isSome_iff_exists.mp hc
      refine .inr ⟨⟨n⟩, i, ?_, ht⟩
      rw [h.code, if_pos hn]
      exact mem_append_right _ (mem_singleton_self i)
  entered pre t post ho := by
    rw [h.order] at ho
    rcases hd.entered pre t post ho with ht | ⟨n, hn, ht⟩
    · exact .inl ht
    · exact .inr ⟨n, hn, h.targets_mono ht⟩

end Adds

theorem WF.emit (hd : d.WF) (hi : i.isTerminator = false) : (d.emit i).WF := by
  refine (hd.adds_emit i).wf hd (fun n hn => ⟨by simpa using hn, hi⟩) fun t => ?_
  rw [isReferenced_emit, Inst.successors_of_not_terminator hi]
  simp

theorem WF.terminate (hd : d.WF) (hi : ∀ t ∈ i.successors, t.index < d.labels.size) :
    (d.terminate i).WF := by
  refine (hd.adds_terminate i).wf hd (fun n hn => by simp at hn) fun t => ?_
  rw [isReferenced_terminate]
  constructor
  · rintro (h | ⟨hc, ht, _⟩)
    · exact .inl h
    · exact .inr ⟨hc, ht⟩
  · rintro (h | ⟨hc, ht⟩)
    · exact .inl h
    · exact .inr ⟨hc, ht, hi t ht⟩

theorem WF.label (hd : d.WF) : d.label.2.WF where
  entry_started := by simpa using hd.entry_started
  current_started n hn := by simpa using hd.current_started n hn
  current_open n hn := by simpa using hd.current_open n hn
  mem_order := by simpa using hd.mem_order
  nodup_order := hd.nodup_order
  code_of_not_started := by simpa using hd.code_of_not_started
  early := by simpa using hd.early
  referenced_of_targets := by simpa [Targets] using hd.referenced_of_targets
  targets_of_referenced := by simpa [Targets] using hd.targets_of_referenced
  entered := by simpa [Targets] using hd.entered

theorem WF.abandon (hd : d.WF) : ({ d with current := none } : Draft).WF :=
  { hd with
    current_started := fun _ hn => nomatch hn
    current_open := fun _ hn => nomatch hn }

theorem WF.start (hd : d.WF) (l : BlockId) : (d.start l).2.WF := by
  by_cases hb : (d.start l).1 = true
  swap
  · rw [start_of_not hb]; exact hd.abandon
  · have hfst := hb
    rw [start_fst, Bool.and_eq_true, Bool.not_eq_true'] at hfst
    obtain ⟨href, hnew⟩ := hfst
    have hcur : (d.start l).2.current = some l.index := by rw [current_start, if_pos hb]
    have hst : ∀ x, (d.start l).2.isStarted x = (d.isStarted x || x == l) := by
      intro x; rw [isStarted_start, hb, Bool.and_true]
    have hord : (d.start l).2.order.toList = d.order.toList ++ [l.index] := by
      rw [order_start, if_pos hb, Array.toList_push]
    have hfresh : l.index ∉ d.order.toList := by
      intro hm; rw [(hd.mem_order l.index).mp hm] at hnew; cases hnew
    have hnil : d.code l = [] := hd.code_of_not_started l hnew
    refine ⟨?_, ?_, ?_, ?_, ?_, ?_, ?_, ?_, ?_, ?_⟩
    · rw [hst, hd.entry_started]; rfl
    · rw [hcur]; intro n hn; cases hn; rw [hst]; simp
    · rw [hcur]; intro n hn; cases hn; rw [code_start, hnil]; intro j hj; cases hj
    · intro n
      have hn : (⟨n⟩ : BlockId) = l ↔ n = l.index :=
        ⟨fun h => h ▸ rfl, fun h => Ref.ext_index h⟩
      rw [hord, hst]
      simp [hd.mem_order n, hn]
    · rw [hord]
      refine nodup_append.mpr ⟨hd.nodup_order, by simp, fun a ha b hb => ?_⟩
      rw [mem_singleton.mp hb]
      exact fun h => hfresh (h ▸ ha)
    · intro x hx
      rw [hst, Bool.or_eq_false_iff] at hx
      rw [code_start]; exact hd.code_of_not_started x hx.1
    · simpa using hd.early
    · simpa [Targets] using hd.referenced_of_targets
    · simpa [Targets] using hd.targets_of_referenced
    · intro pre t post ho
      rw [hord] at ho
      rcases eq_nil_or_concat post with hpost | ⟨post', x, hpost⟩
      · -- The new block: what branches to it has code, so it is in the order.
        rw [hpost] at ho
        obtain ⟨hpre, ht⟩ := append_inj' ho rfl
        cases ht
        rcases hd.targets_of_referenced l href with hl | ⟨n, i, hi, ht⟩
        · rw [hl, hd.entry_started] at hnew; cases hnew
        · refine .inr ⟨n.index, ?_, i, by rwa [code_start], ht⟩
          rw [← hpre, hd.mem_order]
          by_contra hn
          rw [hd.code_of_not_started n (by simpa using hn)] at hi
          cases hi
      · rw [hpost, List.concat_eq_append, ← cons_append, ← append_assoc] at ho
        have ho := (append_inj' ho rfl).1
        simpa [Targets] using hd.entered pre t post' ho

theorem WF.resume (hd : d.WF) (l : BlockId) : (d.resume l).WF where
  entry_started := hd.entry_started
  current_started n hn := by
    rw [current_resume] at hn
    split at hn <;> rename_i h
    · cases hn; simp only [Bool.and_eq_true] at h; exact h.1
    · cases hn
  current_open n hn i hi := by
    rw [current_resume] at hn
    split at hn <;> rename_i h
    · cases hn
      simp only [Bool.and_eq_true, Bool.not_eq_true'] at h
      -- All but the last are no terminators in any block, and this block is not ended.
      rw [code_resume] at hi
      by_cases hlast : i ∈ (d.code l).dropLast
      · exact hd.early l i hlast
      · have hne : d.code l ≠ [] := ne_nil_of_mem hi
        have hend := h.2
        rw [← List.dropLast_concat_getLast hne] at hi
        rcases mem_append.mp hi with hi | hi
        · exact absurd hi hlast
        · rw [mem_singleton] at hi
          rw [isEnded, List.getLast?_eq_some_getLast hne] at hend
          rw [hi]; exact hend
    · cases hn
  mem_order := hd.mem_order
  nodup_order := hd.nodup_order
  code_of_not_started := hd.code_of_not_started
  early := hd.early
  referenced_of_targets := hd.referenced_of_targets
  targets_of_referenced := hd.targets_of_referenced
  entered := hd.entered

/-! ## Growth -/

structure Grows (d0 d : Draft) : Prop where
  size : d0.labels.size ≤ d.labels.size
  code : ∀ l, d0.code l <+: d.code l
  referenced : ∀ l, d0.isReferenced l = true → d.isReferenced l = true
  started : ∀ l, l.index < d0.labels.size → d.isStarted l = d0.isStarted l

namespace Grows

theorem refl (d : Draft) : Grows d d :=
  ⟨le_rfl, fun _ => prefix_rfl, fun _ h => h, fun _ _ => rfl⟩

theorem label (h : Grows d0 d) : Grows d0 d.label.2 :=
  ⟨by rw [size_label]; exact Nat.le_succ_of_le h.size, by simpa using h.code,
    by simpa using h.referenced, by simpa using h.started⟩

theorem adds (h : Grows d0 d) {d' : Draft} (ha : Adds d i d')
    (href : ∀ l, d.isReferenced l = true → d'.isReferenced l = true) : Grows d0 d' where
  size := by rw [ha.size]; exact h.size
  code l := by
    rw [ha.code]
    split
    · exact (h.code l).trans (prefix_append _ _)
    · exact h.code l
  referenced l hl := href l (h.referenced l hl)
  started l hl := by rw [ha.started]; exact h.started l hl

theorem start (h : Grows d0 d) (hl : d0.labels.size ≤ l.index) : Grows d0 (d.start l).2 where
  size := by rw [size_start]; exact h.size
  code := by simpa using h.code
  referenced := by simpa using h.referenced
  started x hx := by
    have hne : (x == l) = false := by
      simp only [beq_eq_false_iff_ne]
      rintro rfl
      omega
    rw [isStarted_start, hne, Bool.false_and, Bool.or_false]
    exact h.started x hx

theorem resume (h : Grows d0 d) : Grows d0 (d.resume l) :=
  ⟨h.size, h.code, h.referenced, h.started⟩

end Grows

/-! ## Debts -/

/-- A draft on its way from `d0`, with labels that still have to be started and
blocks that still have to be resumed. Labels below `n` have been handed out. -/
structure Built (d0 : Draft) (n : Nat) (owed parked : Set BlockId) (d : Draft) : Prop where
  wf : d.WF
  grows : Grows d0 d
  size : n ≤ d.labels.size
  started_or_owed : ∀ l, d.isReferenced l = true → d.isStarted l = true ∨ l ∈ owed
  ended_or_open : ∀ l, d.isStarted l = true →
    d.isEnded l = true ∨ d.current = some l.index ∨ l ∈ parked

namespace Built

variable {n : Nat} {owed parked : Set BlockId}

theorem of_wf (hd : d.WF) : Built d 0 Set.univ Set.univ d :=
  ⟨hd, .refl d, Nat.zero_le _, fun _ _ => .inr trivial, fun _ _ => .inr (.inr trivial)⟩

theorem mono {n' : Nat} {owed' parked' : Set BlockId} (h : Built d0 n owed parked d)
    (hn : n' ≤ n) (ho : owed ⊆ owed') (hp : parked ⊆ parked') : Built d0 n' owed' parked' d where
  wf := h.wf
  grows := h.grows
  size := hn.trans h.size
  started_or_owed l hl := (h.started_or_owed l hl).imp_right (@ho l)
  ended_or_open l hl := (h.ended_or_open l hl).imp_right (.imp_right (@hp l))

theorem settle (h : Built d0 n (insert l owed) parked d) (hl : d.isStarted l = true) :
    Built d0 n owed parked d where
  wf := h.wf
  grows := h.grows
  size := h.size
  started_or_owed x hx := by
    rcases h.started_or_owed x hx with hx | rfl | hx
    · exact .inl hx
    · exact .inl hl
    · exact .inr hx
  ended_or_open := h.ended_or_open

theorem label (h : Built d0 n owed parked d) :
    Built d0 (d.labels.size + 1) owed parked d.label.2 :=
  ⟨h.wf.label, h.grows.label, by rw [size_label], by simpa using h.started_or_owed,
    by simpa [isEnded] using h.ended_or_open⟩

theorem emit (h : Built d0 n owed parked d) (hi : i.isTerminator = false) :
    Built d0 n owed parked (d.emit i) where
  wf := h.wf.emit hi
  grows := h.grows.adds (h.wf.adds_emit i) (by simp)
  size := by rw [size_emit]; exact h.size
  started_or_owed := by simpa using h.started_or_owed
  ended_or_open l hl := by
    rw [isStarted_emit] at hl
    rw [current_emit]
    by_cases hc : d.current = some l.index
    · exact .inr (.inl hc)
    · have hcode : (d.emit i).code l = d.code l := by
        rw [code_emit h.wf.currentValid, if_neg hc]
      rw [isEnded, hcode]
      exact h.ended_or_open l hl

theorem terminate (h : Built d0 n owed parked d) (hi : i.isTerminator = true)
    (hs : ∀ t ∈ i.successors, t.index < n) :
    Built d0 n ({t | t ∈ i.successors} ∪ owed) parked (d.terminate i) where
  wf := h.wf.terminate fun t ht => (hs t ht).trans_le h.size
  grows := h.grows.adds (h.wf.adds_terminate i)
    fun l hl => (isReferenced_terminate d i l).mpr (.inl hl)
  size := by rw [size_terminate]; exact h.size
  started_or_owed l hl := by
    rw [isStarted_terminate]
    rcases (isReferenced_terminate d i l).mp hl with hl | ⟨_, hl, _⟩
    · exact (h.started_or_owed l hl).imp_right .inr
    · exact .inr (.inl hl)
  ended_or_open l hl := by
    rw [isStarted_terminate] at hl
    have hcode := code_terminate h.wf.currentValid i l
    by_cases hc : d.current = some l.index
    · rw [if_pos hc] at hcode
      exact .inl (by rw [isEnded, hcode]; simp [hi])
    · rw [if_neg hc] at hcode
      rw [isEnded, hcode]
      rcases h.ended_or_open l hl with h | h | h
      · exact .inl h
      · exact absurd h hc
      · exact .inr (.inr h)

theorem start (h : Built d0 n (insert l owed) parked d) (hl : d0.labels.size ≤ l.index)
    (hc : ∀ c, d.current = some c → ⟨c⟩ ∈ parked) : Built d0 n owed parked (d.start l).2 where
  wf := h.wf.start l
  grows := h.grows.start hl
  size := by rw [size_start]; exact h.size
  started_or_owed x hx := by
    rw [isReferenced_start] at hx
    rw [isStarted_start, Bool.or_eq_true]
    rcases h.started_or_owed x hx with hx' | rfl | hx'
    · exact .inl (.inl hx')
    · by_cases hs : d.isStarted x = true
      · exact .inl (.inl hs)
      · refine .inl (.inr ?_)
        rw [start_fst, hx]
        simpa using hs
    · exact .inr hx'
  ended_or_open x hx := by
    rw [isStarted_start, Bool.or_eq_true] at hx
    rw [isEnded, code_start]
    rcases hx with hx | hx
    · rcases h.ended_or_open x hx with h | h | h
      · exact .inl h
      · exact .inr (.inr (hc _ h))
      · exact .inr (.inr h)
    · simp only [Bool.and_eq_true, beq_iff_eq] at hx
      rw [current_start, if_pos hx.2, hx.1]
      exact .inr (.inl rfl)

theorem resume (h : Built d0 n owed (insert l parked) d)
    (hc : ∀ c, d.current = some c → ⟨c⟩ ∈ parked) : Built d0 n owed parked (d.resume l) where
  wf := h.wf.resume l
  grows := h.grows.resume
  size := h.size
  started_or_owed := h.started_or_owed
  ended_or_open x hx := by
    change d.isEnded x = true ∨ (d.resume l).current = some x.index ∨ x ∈ parked
    rcases h.ended_or_open x hx with h | h | rfl | h
    · exact .inl h
    · exact .inr (.inr (hc _ h))
    · by_cases he : d.isEnded x = true
      · exact .inl he
      · refine .inr (.inl ?_)
        rw [current_resume, if_pos]
        rw [isStarted_resume] at hx
        simp [hx, he]
    · exact .inr (.inr h)

end Built

end Draft

end StackBackend
