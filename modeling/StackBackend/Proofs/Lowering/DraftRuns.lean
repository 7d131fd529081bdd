import StackBackend.Proofs.Lowering.FunctionBody

/-! Drafts that are built in any order of steps. Labels may be started and resumed at any time, also
away from blocks that are still open; whatever the steps are, a block list comes out unless a block
was left open or a target was never started. -/

namespace StackBackend.Draft

open List

/-- What a draft can be asked to do. A branch is one way to end a block. -/
inductive Operation where
  | label
  | start (l : BlockId)
  | resume (l : BlockId)
  | emit (i : Inst)
  | terminate (i : Inst)

namespace Operation

variable {d : Draft} {op : Operation} {ops before after : List Operation} {l : BlockId} {name : String}

def apply (d : Draft) : Operation → Draft
  | .label => d.label.2
  | .start l => (d.start l).2
  | .resume l => d.resume l
  | .emit i => d.emit i
  | .terminate i => d.terminate i

/-- It mentions labels that were handed out, and terminators end blocks. -/
def Allowed (d : Draft) : Operation → Prop
  | .label => True
  | .start l | .resume l => l.index < d.labels.size
  | .emit i => i.isTerminator = false
  | .terminate i => i.isTerminator = true ∧ ∀ t ∈ i.successors, t.index < d.labels.size

def run (d : Draft) (ops : List Operation) : Draft := ops.foldl apply d

/-- Each of the operations is allowed when its turn comes. -/
def AllAllowed (d : Draft) : List Operation → Prop
  | [] => True
  | op :: rest => op.Allowed d ∧ AllAllowed (op.apply d) rest

instance : DecidablePred (Allowed d) := fun op => by
  cases op <;> unfold Allowed <;> infer_instance

instance decidableAllAllowed : ∀ (d : Draft) (ops : List Operation), Decidable (AllAllowed d ops)
  | _, [] => .isTrue trivial
  | d, op :: rest => @instDecidableAnd _ _ _ (decidableAllAllowed (op.apply d) rest)

/-! ## One step -/

theorem wf_apply (hd : d.WF) (h : op.Allowed d) : (op.apply d).WF := by
  cases op with
  | label => exact hd.label
  | start l => exact hd.start l
  | resume l => exact hd.resume l
  | emit i => exact hd.emit h
  | terminate i => exact hd.terminate h.2

/-- Blocks that have been started stay, and those that have been ended get no more code. -/
structure Continues (d d' : Draft) : Prop where
  order : d.order.toList <+: d'.order.toList
  code : ∀ l, d.isEnded l = true → d'.code l = d.code l

theorem Continues.trans {d' d'' : Draft} (h : Continues d d') (h' : Continues d' d'') :
    Continues d d'' where
  order := h.order.trans h'.order
  code l hl := by
    have hcode := h.code l hl
    have hended : d'.isEnded l = true := by rw [isEnded, hcode]; exact hl
    rw [h'.code l hended, hcode]

theorem continues_of_adds {i : Inst} {d' : Draft} (hd : d.WF) (h : Adds d i d') : Continues d d' where
  order := by simp [h.order]
  code l hl := by
    rw [h.code, if_neg]
    intro hcurrent
    obtain ⟨last, hlast, hterminator⟩ : ∃ last ∈ d.code l, last.isTerminator = true := by
      cases hcode : (d.code l).getLast? with
      | none => rw [isEnded, hcode] at hl; cases hl
      | some last =>
        rw [isEnded, hcode] at hl
        exact ⟨last, mem_of_getLast? hcode, hl⟩
    rw [hd.current_open _ hcurrent last hlast] at hterminator
    cases hterminator

theorem continues_apply (hd : d.WF) : Continues d (op.apply d) := by
  cases op with
  | label => exact ⟨prefix_rfl, fun l _ => code_label d l⟩
  | start l =>
    refine ⟨?_, fun x _ => code_start d l x⟩
    rw [apply, order_start]
    split
    · rw [Array.toList_push]
      exact prefix_append _ _
    · exact prefix_rfl
  | resume l => exact ⟨prefix_rfl, fun _ _ => rfl⟩
  | emit i => exact continues_of_adds hd (hd.adds_emit i)
  | terminate i => exact continues_of_adds hd (hd.adds_terminate i)

/-! ## Runs -/

theorem allAllowed_append : AllAllowed d (before ++ after) ↔
    AllAllowed d before ∧ AllAllowed (run d before) after := by
  induction before generalizing d with
  | nil => simp [AllAllowed, run]
  | cons op rest ih => simp [AllAllowed, run, ih, and_assoc]

theorem run_spec (hd : d.WF) (h : AllAllowed d ops) : (run d ops).WF ∧ Continues d (run d ops) := by
  induction ops generalizing d with
  | nil => exact ⟨hd, prefix_rfl, fun _ _ => rfl⟩
  | cons op rest ih =>
    obtain ⟨hwf, hrest⟩ := ih (wf_apply hd h.1) h.2
    exact ⟨hwf, (continues_apply hd).trans hrest⟩

/-! ## Finishing -/

theorem isStarted_of_numberOf? (hd : d.WF) (h : d.numberOf? l ≠ none) : d.isStarted l = true := by
  rw [numberOf?, ne_eq, Option.map_eq_none_iff, Array.findIdx?_eq_none_iff] at h
  push Not at h
  obtain ⟨n, hn, heq⟩ := h
  rw [of_decide_eq_true (eq_true_of_ne_false heq)] at hn
  exact (hd.mem_order l.index).mp (Array.mem_toList_iff.mpr hn)

theorem of_finishBlock {position label : Nat} {b : Block} (hd : d.WF)
    (h : d.finishBlock name position label = .ok b) :
    d.isEnded ⟨label⟩ = true ∧ ∀ t, d.Targets ⟨label⟩ t → d.isStarted t = true := by
  unfold finishBlock at h
  dsimp only at h
  split at h <;> rename_i hended
  · split at h <;> rename_i hmissing
    · cases h
    · refine ⟨hended, fun t ⟨i, hi, ht⟩ => isStarted_of_numberOf? hd ?_⟩
      rw [missingTarget?, getLast?_eq_none_iff, filter_eq_nil_iff] at hmissing
      simpa [Option.isNone_iff_eq_none] using hmissing t (mem_flatMap.mpr ⟨i, hi, ht⟩)
  · cases h

theorem of_finishBlocks {labels : List Nat} (hd : d.WF) : ∀ {position : Nat} {bs : List Block},
    d.finishBlocks name position labels = .ok bs → ∀ label ∈ labels,
      d.isEnded ⟨label⟩ = true ∧ ∀ t, d.Targets ⟨label⟩ t → d.isStarted t = true := by
  induction labels with
  | nil => exact fun _ => nofun
  | cons label rest ih =>
    intro position bs h
    rw [finishBlocks] at h
    cases hblock : d.finishBlock name position label with
    | error e => rw [hblock] at h; cases h
    | ok b =>
      cases hrest : d.finishBlocks name (position + 1) rest with
      | error e => rw [hblock, hrest] at h; cases h
      | ok bs' => exact forall_mem_cons.mpr ⟨of_finishBlock hd hblock, ih hrest⟩

theorem finished_iff (hd : d.WF) : d.Finished ↔
    ∀ l, d.isStarted l = true → d.isEnded l = true ∧ ∀ t, d.Targets l t → d.isStarted t = true := by
  constructor
  · exact fun h l hl => ⟨h.ended l hl, fun t ht => h.started t (hd.referenced_of_targets l t ht)⟩
  · refine fun h => ⟨hd, fun t ht => ?_, fun l hl => (h l hl).1⟩
    rcases hd.targets_of_referenced t ht with rfl | ⟨l, htarget⟩
    · exact hd.entry_started
    · -- code that branches somewhere is at a label that was started
      refine (h l ?_).2 t htarget
      by_contra hl
      obtain ⟨i, hi, _⟩ := htarget
      rw [hd.code_of_not_started l (by simpa using hl)] at hi
      cases hi

theorem finished_of_finish {bs : List Block} (hd : d.WF) (h : d.finish name = .ok bs) : d.Finished :=
  (finished_iff hd).mpr fun l hl =>
    of_finishBlocks hd h l.index ((hd.mem_order l.index).mpr hl)

theorem finish_error_iff (hd : d.WF) : (∃ e, d.finish name = .error e) ↔ ¬ d.Finished := by
  constructor
  · rintro ⟨e, he⟩ h
    cases he.symm.trans (finish_eq h name)
  · intro h
    cases hf : d.finish name with
    | error e => exact ⟨e, rfl⟩
    | ok bs => exact absurd (finished_of_finish hd hf) h

end Operation

open Operation

/-- Whatever a draft is asked to do, its block list is a graph that is entered at its first block.
None comes out just if a block was left open or branches to what was never started. A label has one
block at most, and no code comes after its terminator. -/
theorem operations_draft_blocks {ops : List Operation} (h : AllAllowed .initial ops) (name : String) :
    (∀ bs, (run .initial ops).finish name = .ok bs → bs = (run .initial ops).blocks ∧ BlockGraph bs ∧
      ∀ k < bs.length, Relation.ReflTransGen (BlockStep bs) 0 k) ∧
    ((∃ e, (run .initial ops).finish name = .error e) ↔ ∃ l, (run .initial ops).isStarted l = true ∧
      ((run .initial ops).isEnded l = false ∨
        ∃ t, (run .initial ops).Targets l t ∧ (run .initial ops).isStarted t = false)) ∧
    (run .initial ops).order.toList.Nodup ∧
    ∀ before after, ops = before ++ after → Continues (run .initial before) (run .initial ops) := by
  have hwf := (run_spec wf_initial h).1
  refine ⟨fun bs hbs => ?_, ?_, hwf.nodup_order, ?_⟩
  · have hfinished := finished_of_finish hwf hbs
    cases (finish_eq hfinished name).symm.trans hbs
    exact ⟨rfl, hfinished.blockGraph, hfinished.blockGraph.reachable⟩
  · rw [finish_error_iff hwf, finished_iff hwf]
    push Not
    simp only [imp_iff_not_or, Bool.not_eq_true]
  · rintro before after rfl
    obtain ⟨hbefore, hafter⟩ := allAllowed_append.mp h
    rw [show run .initial (before ++ after) = run (run .initial before) after from foldl_append]
    exact (run_spec (run_spec wf_initial hbefore).1 hafter).2

/-- A block is left for another one and gone on with afterwards. -/
def resuming : List Operation :=
  [.label, .label, .emit .true, .terminate (.branchIf ⟨1⟩ ⟨2⟩), .start ⟨1⟩, .emit .unit, .start ⟨2⟩,
    .terminate .throw, .resume ⟨1⟩, .terminate .ret]

theorem operations_draft_blocks_resuming :
    BlockGraph (run .initial resuming).blocks ∧ (run .initial resuming).blocks.length = 3 := by
  have hfinish : (run .initial resuming).finish "f" = .ok (run .initial resuming).blocks :=
    by with_unfolding_all rfl
  have hblocks := operations_draft_blocks (show AllAllowed .initial resuming by decide) "f"
  exact ⟨(hblocks.1 _ hfinish).2.1, by with_unfolding_all rfl⟩

end StackBackend.Draft
