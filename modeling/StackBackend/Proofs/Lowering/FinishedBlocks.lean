import Mathlib.Logic.Relation
import StackBackend.Proofs.Lowering.NeatExpr

/-! The block list of a finished draft. Blocks stand in the order their labels were
started, each label is replaced by the position of its block, and nothing is missing:
every block ends in its only terminator, every target is there, and every block but
the first is entered from one before it. -/

namespace StackBackend

open List

/-- What is promised of a block list. -/
structure BlockGraph (blocks : List Block) : Prop where
  nonempty : blocks ≠ []
  numbered : ∀ (k : Nat) (b : Block), blocks[k]? = some b → b.id = ⟨k⟩
  /-- One terminator in each block, and it stands at the end. -/
  terminated : ∀ b ∈ blocks, ∃ before last, b.instructions = before ++ [last] ∧
    last.isTerminator = true ∧ ∀ i ∈ before, i.isTerminator = false
  targets : ∀ b ∈ blocks, ∀ t ∈ b.successors, t.index < blocks.length
  /-- A block after the first is the target of one with a lower number. -/
  entered : ∀ k, 0 < k → k < blocks.length →
    ∃ (j : Nat) (b : Block), j < k ∧ blocks[j]? = some b ∧ (⟨k⟩ : BlockId) ∈ b.successors

def BlockStep (blocks : List Block) (j k : Nat) : Prop :=
  ∃ b, blocks[j]? = some b ∧ (⟨k⟩ : BlockId) ∈ b.successors

theorem BlockGraph.reachable {blocks : List Block} (h : BlockGraph blocks) (k : Nat)
    (hk : k < blocks.length) : Relation.ReflTransGen (BlockStep blocks) 0 k := by
  induction k using Nat.strongRecOn with
  | ind k ih =>
    rcases Nat.eq_zero_or_pos k with rfl | hpos
    · exact .refl
    · obtain ⟨j, b, hj, hb, hmem⟩ := h.entered k hpos hk
      exact (ih j hj (hj.trans hk)).tail ⟨b, hb, hmem⟩

namespace Draft

variable {d : Draft}

def number (d : Draft) (l : BlockId) : BlockId := (d.numberOf? l).getD l

def blockAt (d : Draft) (position label : Nat) : Block :=
  ⟨⟨position⟩, (d.code ⟨label⟩).map (Inst.mapTargets d.number)⟩

/-- Every label that is branched to has been started, and every block that was
started has been ended. -/
structure Finished (d : Draft) : Prop where
  wf : d.WF
  started : ∀ l, d.isReferenced l = true → d.isStarted l = true
  ended : ∀ l, d.isStarted l = true → d.isEnded l = true

theorem Built.finished {d0 : Draft} {n : Nat} (h : Built d0 n ∅ ∅ d) (hc : d.current = none) :
    d.Finished where
  wf := h.wf
  started l hl := by
    rcases h.started_or_owed l hl with hl | hl
    · exact hl
    · cases hl
  ended l hl := by
    rcases h.ended_or_open l hl with hl | hl | hl
    · exact hl
    · rw [hc] at hl; cases hl
    · cases hl

/-! ## Numbers -/

theorem numberOf?_eq_some {l : BlockId} {k : Nat} (hd : d.WF)
    (h : d.order.toList[k]? = some l.index) : d.numberOf? l = some ⟨k⟩ := by
  obtain ⟨hk, hl⟩ := List.getElem?_eq_some_iff.mp h
  have hfind : d.order.toList.findIdx? (· = l.index) = some k := by
    rw [List.findIdx?_eq_some_iff_getElem]
    refine ⟨hk, by simpa using hl, fun j hj => ?_⟩
    have hne := pairwise_iff_getElem.mp hd.nodup_order j k (by omega) hk hj
    rw [hl] at hne
    simpa using hne
  rw [← List.findIdx?_toArray, Array.toArray_toList] at hfind
  rw [numberOf?, hfind]
  rfl

theorem exists_number {l : BlockId} (hd : d.WF) (hl : d.isStarted l = true) :
    ∃ k, d.order.toList[k]? = some l.index ∧ d.number l = ⟨k⟩ ∧ d.numberOf? l = some ⟨k⟩ := by
  obtain ⟨k, hk, h⟩ := mem_iff_getElem.mp ((hd.mem_order l.index).mpr hl)
  have h : d.order.toList[k]? = some l.index := List.getElem?_eq_some_iff.mpr ⟨hk, h⟩
  have hn := numberOf?_eq_some hd h
  exact ⟨k, h, by rw [number, hn]; rfl, hn⟩

theorem number_entry (hd : d.WF) : d.number entry = ⟨0⟩ := by
  obtain ⟨k, hk, _⟩ := exists_number hd hd.entry_started
  cases horder : d.order.toList with
  | nil => rw [horder] at hk; cases hk
  | cons first rest =>
    rcases hd.entered [] first rest horder with ⟨_, rfl⟩ | ⟨n, hn, _⟩
    · have hfirst : d.order.toList[0]? = some entry.index := by rw [horder]; rfl
      unfold number
      rw [numberOf?_eq_some hd hfirst]
      rfl
    · cases hn

/-! ## Finishing -/

theorem finishBlock_eq (hd : d.Finished) (function : String) (position : Nat) {label : Nat}
    (hl : d.isStarted ⟨label⟩ = true) :
    d.finishBlock function position label = .ok (d.blockAt position label) := by
  have hmissing : d.missingTarget? (d.code ⟨label⟩) = none := by
    rw [missingTarget?, List.getLast?_eq_none_iff, filter_eq_nil_iff]
    intro t ht
    obtain ⟨i, hi, ht⟩ := mem_flatMap.mp ht
    have href := hd.wf.referenced_of_targets ⟨label⟩ t ⟨i, hi, ht⟩
    obtain ⟨k, _, _, hk⟩ := exists_number hd.wf (hd.started t href)
    simp [hk]
  have hend := hd.ended ⟨label⟩ hl
  unfold isEnded code at hend
  unfold code at hmissing
  unfold finishBlock
  dsimp only
  rw [if_pos hend, hmissing]
  rfl

theorem finishBlocks_eq (hd : d.Finished) (function : String) (labels : List Nat) :
    ∀ position, (∀ l ∈ labels, d.isStarted ⟨l⟩ = true) →
      d.finishBlocks function position labels =
        .ok ((labels.zipIdx position).map fun p => d.blockAt p.2 p.1) := by
  induction labels with
  | nil => intro position _; rfl
  | cons label rest ih =>
    intro position hl
    rw [finishBlocks, finishBlock_eq hd function position (hl label (.head _)),
      ih (position + 1) fun l h => hl l (mem_cons_of_mem label h)]
    rfl

def blocks (d : Draft) : List Block := d.order.toList.zipIdx.map fun p => d.blockAt p.2 p.1

theorem finish_eq (hd : d.Finished) (function : String) : d.finish function = .ok d.blocks :=
  finishBlocks_eq hd function _ 0 fun l hl => (hd.wf.mem_order l).mp hl

theorem getElem?_blocks (d : Draft) (k : Nat) :
    d.blocks[k]? = (d.order.toList[k]?).map (d.blockAt k) := by
  simp only [blocks, List.getElem?_map, List.getElem?_zipIdx, Nat.zero_add, Option.map_map]
  rfl

theorem length_blocks (d : Draft) : d.blocks.length = d.order.toList.length := by
  simp [blocks]

theorem exists_label_of_mem {b : Block} (hd : d.WF) (hb : b ∈ d.blocks) :
    ∃ k label, d.order.toList[k]? = some label ∧ d.isStarted ⟨label⟩ = true ∧
      b = d.blockAt k label := by
  obtain ⟨k, hk, h⟩ := mem_iff_getElem.mp hb
  have h : d.blocks[k]? = some b := List.getElem?_eq_some_iff.mpr ⟨hk, h⟩
  rw [getElem?_blocks] at h
  obtain ⟨label, hl, rfl⟩ := Option.map_eq_some_iff.mp h
  exact ⟨k, label, hl, (hd.mem_order label).mp (mem_of_getElem? hl), rfl⟩

theorem code_split (hd : d.Finished) {l : BlockId} (hl : d.isStarted l = true) :
    ∃ before last, d.code l = before ++ [last] ∧ last.isTerminator = true ∧
      ∀ i ∈ before, i.isTerminator = false := by
  have hend := hd.ended l hl
  rcases eq_nil_or_concat (d.code l) with h | ⟨before, last, h⟩
  · rw [isEnded, h] at hend; cases hend
  · rw [List.concat_eq_append] at h
    have hearly := hd.wf.early l
    rw [isEnded, h] at hend
    rw [h, List.dropLast_concat] at hearly
    exact ⟨before, last, h, by simpa using hend, hearly⟩

theorem mem_successors_blockAt (hd : d.Finished) {k label : Nat}
    (hl : d.isStarted ⟨label⟩ = true) {t : BlockId} :
    t ∈ (d.blockAt k label).successors ↔ ∃ l, d.Targets ⟨label⟩ l ∧ t = d.number l := by
  obtain ⟨before, last, hcode, hterm, hbefore⟩ := code_split hd hl
  have hsucc : (d.blockAt k label).successors = last.successors.map d.number := by
    simp [Block.successors, Block.terminator?, blockAt, hcode, hterm, Inst.successors_mapTargets,
      Option.filter]
  rw [hsucc, mem_map]
  constructor
  · rintro ⟨l, h, rfl⟩
    exact ⟨l, ⟨last, by rw [hcode]; simp, h⟩, rfl⟩
  · rintro ⟨l, ⟨i, hi, h⟩, rfl⟩
    rw [hcode] at hi
    rcases mem_append.mp hi with hi | hi
    · rw [Inst.successors_of_not_terminator (hbefore i hi)] at h; cases h
    · rw [mem_singleton.mp hi] at h; exact ⟨l, h, rfl⟩

theorem Finished.blockGraph (hd : d.Finished) : BlockGraph d.blocks where
  nonempty := by
    have hentry := (hd.wf.mem_order 0).mpr hd.wf.entry_started
    intro h
    have hlen := length_blocks d
    rw [h] at hlen
    rw [length_eq_zero_iff.mp hlen.symm] at hentry
    cases hentry
  numbered k b hb := by
    rw [getElem?_blocks] at hb
    obtain ⟨label, _, rfl⟩ := Option.map_eq_some_iff.mp hb
    rfl
  terminated b hb := by
    obtain ⟨k, label, _, hl, rfl⟩ := exists_label_of_mem hd.wf hb
    obtain ⟨before, last, hcode, hterm, hbefore⟩ := code_split hd hl
    refine ⟨before.map (Inst.mapTargets d.number), last.mapTargets d.number,
      by simp [blockAt, hcode], by simpa using hterm, ?_⟩
    intro i hi
    obtain ⟨j, hj, rfl⟩ := mem_map.mp hi
    simpa using hbefore j hj
  targets b hb t ht := by
    obtain ⟨k, label, _, hl, rfl⟩ := exists_label_of_mem hd.wf hb
    obtain ⟨l, htarget, rfl⟩ := (mem_successors_blockAt hd hl).mp ht
    obtain ⟨j, hj, hnum, _⟩ :=
      exists_number hd.wf (hd.started l (hd.wf.referenced_of_targets _ l htarget))
    rw [hnum, length_blocks]
    exact (List.getElem?_eq_some_iff.mp hj).1
  entered k hk hlt := by
    rw [length_blocks] at hlt
    have hsplit : d.order.toList =
        d.order.toList.take k ++ d.order.toList[k] :: d.order.toList.drop (k + 1) := by
      rw [getElem_cons_drop, take_append_drop]
    rcases hd.wf.entered _ _ _ hsplit with ⟨hnil, _⟩ | ⟨n, hn, htarget⟩
    · have hlen := congrArg List.length hnil
      simp only [length_take, length_nil] at hlen
      omega
    · obtain ⟨j, hj, hget⟩ := mem_take_iff_getElem.mp hn
      have hjk : j < k := by omega
      have hjlt : j < d.order.toList.length := by omega
      have hsome : d.order.toList[j]? = some n := List.getElem?_eq_some_iff.mpr ⟨hjlt, hget⟩
      have hstarted := (hd.wf.mem_order n).mp (mem_of_getElem? hsome)
      refine ⟨j, d.blockAt j n, hjk, by rw [getElem?_blocks, hsome]; rfl, ?_⟩
      rw [mem_successors_blockAt hd hstarted]
      refine ⟨_, htarget, ?_⟩
      have hnum := numberOf?_eq_some (l := ⟨d.order.toList[k]⟩) hd.wf
        (List.getElem?_eq_getElem hlt)
      rw [number, hnum]
      rfl

end Draft

end StackBackend
