import StackBackend.Verify
import StackBackend.Proofs.Lowering.FinishedBlocks

/-! What verification decides. The walk over the blocks of a body marks exactly what can be
reached: it is given enough steps to empty its list of pending blocks, and at every step the
successors of what is marked are marked or pending. -/

namespace StackBackend

open List

open Relation (ReflTransGen)

variable {p : Program} {body : Body} {function : String} {k : Nat} {b : Block}
variable {n : Nat} {name : String} {t : BlockId}

/-! ## The walk -/

namespace Body

variable {blocks : List Block} {seen : Array Bool} {pending rest : List BlockId} {j : Nat}

def LeadsTo (blocks : List Block) (pending : List BlockId) (k : Nat) : Prop :=
  ∃ t ∈ pending, ReflTransGen (BlockStep blocks) t.index k

/-- The walk with every mark and every block looked up. There is no answer if one of them is
not there, or if blocks are pending when the steps are over. -/
def walk? (blocks : Array Block) : Nat → List BlockId → Array Bool → Option (Array Bool)
  | _, [], seen => some seen
  | 0, _ :: _, _ => none
  | steps + 1, t :: pending, seen => do
    if ← seen[t.index]? then walk? blocks steps pending seen
    else
      let block ← blocks[t.index]?
      walk? blocks steps (block.successors ++ pending) (seen.modify t.index fun _ => true)

theorem length_successors_le (b : Block) : b.successors.length ≤ 2 := by
  have hinst : ∀ i : Inst, i.successors.length ≤ 2 := by
    intro i; cases i <;> simp [Inst.successors]
  unfold Block.successors
  cases b.terminator? with
  | none => simp
  | some i => exact hinst i

theorem count_mark (h : seen[k]? = some false) :
    (seen.modify k fun _ => true).count false + 1 = seen.count false := by
  obtain ⟨hk, hget⟩ := Array.getElem?_eq_some_iff.mp h
  have hset : (seen.modify k fun _ => true) = seen.set k true hk := by
    apply Array.ext_getElem?
    intro j
    rw [Array.getElem?_modify, Array.getElem?_set]
    split <;> rename_i hj
    · subst hj; simp [hk]
    · rfl
  have hpos : 0 < seen.count false := Array.count_pos_iff.mpr (hget ▸ Array.getElem_mem hk)
  rw [hset, Array.count_set hk, hget]
  simp only [BEq.rfl, if_true]
  simp
  omega

theorem getElem?_mark (hk : k < seen.size) :
    (seen.modify k fun _ => true)[j]? = some true ↔ seen[j]? = some true ∨ j = k := by
  rw [Array.getElem?_modify]
  split <;> rename_i h
  · subst h
    simp [hk]
  · simp [Ne.symm h]

theorem leadsTo_append : LeadsTo blocks (pending ++ rest) k ↔
    LeadsTo blocks pending k ∨ LeadsTo blocks rest k := by
  simp [LeadsTo, or_and_right, exists_or]

theorem leadsTo_cons (hb : blocks[t.index]? = some b) :
    LeadsTo blocks (t :: rest) k ↔ k = t.index ∨ LeadsTo blocks (b.successors ++ rest) k := by
  rw [leadsTo_append]
  constructor
  · rintro ⟨x, hx, h⟩
    rcases mem_cons.mp hx with rfl | hx
    · rcases h.cases_head with rfl | ⟨n, ⟨b', hb', hn⟩, h⟩
      · exact .inl rfl
      · cases hb.symm.trans hb'
        exact .inr (.inl ⟨_, hn, h⟩)
    · exact .inr (.inr ⟨x, hx, h⟩)
  · rintro (rfl | ⟨x, hx, h⟩ | ⟨x, hx, h⟩)
    · exact ⟨t, .head _, .refl⟩
    · exact ⟨t, .head _, .head ⟨b, hb, hx⟩ h⟩
    · exact ⟨x, .tail _ hx, h⟩

/-- The blocks that are looked at are there, and so are those they lead to. -/
structure Tracks (blocks : List Block) (pending : List BlockId) (seen : Array Bool) : Prop where
  size : seen.size = blocks.length
  targets : ∀ b ∈ blocks, ∀ t ∈ b.successors, t.index < blocks.length
  known : ∀ t ∈ pending, t.index < blocks.length
  /-- The successors of marked blocks are marked, or will be looked at. -/
  closed : ∀ k j, seen[k]? = some true → BlockStep blocks k j → seen[j]? = some true ∨ ⟨j⟩ ∈ pending

theorem Tracks.leads (h : Tracks blocks pending seen) (hk : seen[k]? = some true)
    (hj : ReflTransGen (BlockStep blocks) k j) : seen[j]? = some true ∨ LeadsTo blocks pending j := by
  induction hj with
  | refl => exact .inl hk
  | tail _ hstep ih =>
    rcases ih with hm | ⟨t, ht, hpath⟩
    · exact (h.closed _ _ hm hstep).imp_right fun hp => ⟨_, hp, .refl⟩
    · exact .inr ⟨t, ht, hpath.tail hstep⟩

theorem Tracks.drop (h : Tracks blocks (t :: rest) seen)
    (ht : seen[t.index]? = some true) : Tracks blocks rest seen where
  size := h.size
  targets := h.targets
  known x hx := h.known x (.tail _ hx)
  closed k j hk hstep := by
    rcases h.closed k j hk hstep with hj | hj
    · exact .inl hj
    · rcases mem_cons.mp hj with rfl | hj
      · exact .inl ht
      · exact .inr hj

theorem Tracks.mark (h : Tracks blocks (t :: rest) seen) (hb : blocks[t.index]? = some b) :
    Tracks blocks (b.successors ++ rest) (seen.modify t.index fun _ => true) where
  size := by rw [Array.size_modify, h.size]
  targets := h.targets
  known := forall_mem_append.mpr
    ⟨h.targets b (mem_of_getElem? hb), fun x hx => h.known x (.tail _ hx)⟩
  closed k j hk hstep := by
    have hlt : t.index < seen.size := h.size ▸ h.known t (.head _)
    rcases (getElem?_mark hlt).mp hk with hk | rfl
    · rcases h.closed k j hk hstep with hj | hj
      · exact .inl ((getElem?_mark hlt).mpr (.inl hj))
      · rcases mem_cons.mp hj with rfl | hj
        · exact .inl ((getElem?_mark hlt).mpr (.inr rfl))
        · exact .inr (mem_append_right _ hj)
    · obtain ⟨b', hb', hj⟩ := hstep
      cases hb.symm.trans hb'
      exact .inr (mem_append_left _ hj)

/-- The walk is over before its steps are, looks at nothing that is not there, and has marked
what was marked and what pending blocks lead to. Two steps for each unmarked block are enough. -/
theorem explore_marks (steps : Nat) : ∀ {pending : List BlockId} {seen : Array Bool},
    Tracks blocks pending seen → pending.length + 2 * seen.count false ≤ steps →
    walk? blocks.toArray steps pending seen = some (explore blocks.toArray steps pending seen) ∧
    (explore blocks.toArray steps pending seen).size = blocks.length ∧
    ∀ k, (explore blocks.toArray steps pending seen)[k]? = some true ↔
      seen[k]? = some true ∨ LeadsTo blocks pending k := by
  induction steps with
  | zero =>
    intro pending seen h hsteps
    cases length_eq_zero_iff.mp (show pending.length = 0 by omega)
    exact ⟨rfl, h.size, by simp [explore, LeadsTo]⟩
  | succ steps ih =>
    intro pending seen h hsteps
    cases pending with
    | nil => exact ⟨rfl, h.size, by simp [explore, LeadsTo]⟩
    | cons t rest =>
      have hlt : t.index < blocks.length := h.known t (.head _)
      obtain ⟨b, hb⟩ : ∃ b, blocks[t.index]? = some b := ⟨_, List.getElem?_eq_getElem hlt⟩
      obtain ⟨v, hv⟩ : ∃ v, seen[t.index]? = some v :=
        ⟨_, Array.getElem?_eq_getElem (h.size ▸ hlt)⟩
      rw [length_cons] at hsteps
      cases v with
      | true =>
        obtain ⟨hwalk, hsize, hmarks⟩ := ih (h.drop hv) (by omega)
        have hexplore : explore blocks.toArray (steps + 1) (t :: rest) seen =
            explore blocks.toArray steps rest seen := by
          simp [explore, Array.getD_eq_getD_getElem?, hv]
        rw [hexplore]
        refine ⟨by simpa [walk?, hv] using hwalk, hsize, fun k => (hmarks k).trans ⟨?_, ?_⟩⟩
        · rintro (hk | ⟨x, hx, hpath⟩)
          · exact .inl hk
          · exact .inr ⟨x, .tail _ hx, hpath⟩
        · rintro (hk | ⟨x, hx, hpath⟩)
          · exact .inl hk
          · rcases mem_cons.mp hx with rfl | hx
            · exact (h.drop hv).leads hv hpath
            · exact .inr ⟨x, hx, hpath⟩
      | false =>
        have hcount := count_mark hv
        have hsucc := length_successors_le b
        obtain ⟨hwalk, hsize, hmarks⟩ := ih (h.mark hb) (by rw [length_append]; omega)
        have hexplore : explore blocks.toArray (steps + 1) (t :: rest) seen =
            explore blocks.toArray steps (b.successors ++ rest)
              (seen.modify t.index fun _ => true) := by
          simp [explore, Array.getD_eq_getD_getElem?, hv, hb]
        rw [hexplore]
        refine ⟨by simpa [walk?, hv, hb] using hwalk, hsize, fun k => (hmarks k).trans ?_⟩
        rw [getElem?_mark (h.size ▸ hlt), leadsTo_cons hb, or_assoc]

theorem reachedBlocks_iff (hne : body.blocks ≠ [])
    (htargets : ∀ b ∈ body.blocks, ∀ t ∈ b.successors, t.index < body.blocks.length) :
    (∃ steps, walk? body.blocks.toArray steps [⟨0⟩]
      (Array.replicate body.blocks.length false) = some body.reachedBlocks) ∧
    body.reachedBlocks.size = body.blocks.length ∧
    ∀ k, body.reachedBlocks[k]? = some true ↔ ReflTransGen (BlockStep body.blocks) 0 k := by
  have hnone : ∀ k : Nat, (Array.replicate body.blocks.length false)[k]? ≠ some true := by
    intro k
    rw [Array.getElem?_replicate]
    split <;> simp
  have hstart : Tracks body.blocks [⟨0⟩] (Array.replicate body.blocks.length false) :=
    ⟨Array.size_replicate, htargets, forall_mem_singleton.mpr (length_pos_iff.mpr hne),
      fun k _ hk _ => absurd hk (hnone k)⟩
  obtain ⟨hwalk, hsize, hmarks⟩ :=
    explore_marks (2 * body.blocks.length + 2) hstart (by simp; omega)
  refine ⟨⟨_, hwalk⟩, hsize, fun k => (hmarks k).trans ?_⟩
  simp [hnone, LeadsTo]

theorem findIdx?_unmarked {seen : Array Bool} {P : Nat → Prop}
    (hP : ∀ k, seen[k]? = some true ↔ P k) :
    (seen.findIdx? (!·) = none ↔ ∀ k < seen.size, P k) ∧
    ∀ k, seen.findIdx? (!·) = some k ↔ k < seen.size ∧ ¬ P k ∧ ∀ j < k, P j := by
  simp only [← hP, Array.findIdx?_eq_none_iff, Array.forall_mem_iff_forall_getElem,
    Array.findIdx?_eq_some_iff_getElem]
  refine ⟨?_, by grind⟩
  simp +contextual

end Body

/-! ## The checks -/

/-- What verification asks of a block at a position. -/
structure Block.Passes (p : Program) (body : Body) (k : Nat) (b : Block) : Prop where
  numbered : b.id = ⟨k⟩
  /-- One terminator, and it stands at the end. -/
  terminated : ∃ before last, b.instructions = before ++ [last] ∧ last.isTerminator = true ∧
    ∀ i ∈ before, i.isTerminator = false
  targets : ∀ t ∈ b.successors, t.index < body.blocks.length
  operands : ∀ i ∈ b.instructions, operandInRange p body i = true

theorem Block.successors_eq {before : List Inst} {last : Inst} (h : b.instructions = before ++ [last])
    (hlast : last.isTerminator = true) : b.successors = last.successors := by
  simp [Block.successors, Block.terminator?, h, Option.filter, hlast]

theorem checkBlock_iff : checkBlock p function body k b = .ok () ↔ b.Passes p body k := by
  have hthrow : ∀ {e : CompileError} {f : PUnit → Except CompileError Unit},
    (throw e >>= f) = .error e := rfl
  unfold checkBlock
  simp only [hthrow]
  constructor
  · intro h
    split at h
    · cases h
    rename_i hnumber
    split at h
    rotate_left
    · cases h
    rename_i last hlast
    obtain ⟨before, hinsts⟩ := List.getLast?_eq_some_iff.mp hlast
    rw [hinsts, List.dropLast_concat] at h
    split at h
    · cases h
    rename_i hterm
    rw [Bool.not_eq_true', Bool.not_eq_false] at hterm
    split at h
    · cases h
    rename_i hearly
    split at h
    · cases h
    rename_i htarget
    split at h
    · cases h
    rename_i hoperand
    have hnone : ∀ {α : Type} {xs : List α} {f : α → Bool}, (∀ x, xs.find? f = some x → False) →
        ∀ x ∈ xs, ¬ f x = true := fun h =>
      List.find?_eq_none.mp (Option.eq_none_iff_forall_not_mem.mpr h)
    refine ⟨Ref.ext_index (not_not.mp hnumber), ⟨before, last, hinsts, hterm, ?_⟩, ?_, ?_⟩
    · simpa using hnone hearly
    · rw [Block.successors_eq hinsts hterm]
      simpa using hnone htarget
    · rw [hinsts]
      simpa using hnone hoperand
  · rintro ⟨hnumber, ⟨before, last, hinsts, hterm, hearly⟩, htarget, hoperand⟩
    rw [Block.successors_eq hinsts hterm] at htarget
    have h1 : before.find? Inst.isTerminator = none := by simpa using hearly
    have h2 : last.successors.find? (body.blocks.length ≤ ·.index) = none := by simpa using htarget
    have h3 : b.instructions.find? (!operandInRange p body ·) = none := by simpa using hoperand
    rw [h3]
    simp [hnumber, hinsts, hterm, h1, h2]
    rfl

def Body.Passes (p : Program) (body : Body) : Prop :=
  ∀ (k : Nat) (b : Block), body.blocks[k]? = some b → b.Passes p body k

theorem checkBlock_ne :
    checkBlock p function body k b ≠ .error (.unreachableBlock name n) := by
  intro h
  unfold checkBlock at h
  repeat' first
    | cases h
    | split at h

theorem checkBlocks_cons {blocks : List Block} {r : Except CompileError Unit} :
    checkBlocks p function body k (b :: blocks) = r ↔
      checkBlock p function body k b = .ok () ∧ checkBlocks p function body (k + 1) blocks = r ∨
        ∃ e, checkBlock p function body k b = .error e ∧ r = .error e := by
  rw [checkBlocks]
  cases checkBlock p function body k b <;> simp [bind, Except.bind, eq_comm]

theorem checkBlocks_iff (blocks : List Block) : ∀ {k : Nat},
    checkBlocks p function body k blocks = .ok () ↔
      ∀ (j : Nat) (b : Block), blocks[j]? = some b → b.Passes p body (k + j) := by
  induction blocks with
  | nil => simp [checkBlocks, pure, Except.pure]
  | cons b rest ih =>
    intro k
    rw [checkBlocks_cons, checkBlock_iff, ih]
    constructor
    · rintro (⟨hb, hrest⟩ | ⟨_, _, h⟩) (_ | j) b' hb'
      · cases hb'; exact hb
      · rw [← Nat.succ_add_eq_add_succ]
        exact hrest j b' hb'
      all_goals cases h
    · intro h
      refine .inl ⟨h 0 b rfl, fun j b' hb' => ?_⟩
      rw [Nat.succ_add_eq_add_succ]
      exact h (j + 1) b' hb'

theorem checkBlocks_ne (blocks : List Block) : ∀ {k : Nat},
    checkBlocks p function body k blocks ≠ .error (.unreachableBlock name n) := by
  induction blocks with
  | nil => nofun
  | cons b rest ih =>
    intro k h
    rcases checkBlocks_cons.mp h with ⟨_, h⟩ | ⟨e, h, he⟩
    · exact ih h
    · cases he
      exact checkBlock_ne h

theorem verifyBody_cases (p : Program) (function : String) (body : Body) :
    body.blocks ≠ [] ∧ body.Passes p ∧ verifyBody p function body =
      (match body.reachedBlocks.findIdx? (!·) with
        | some k => .error (.unreachableBlock function k)
        | none => .ok ()) ∨
    ¬ (body.blocks ≠ [] ∧ body.Passes p) ∧ ∃ e, verifyBody p function body = .error e ∧
      ∀ name k, e ≠ .unreachableBlock name k := by
  unfold verifyBody
  cases hblocks : body.blocks with
  | nil => exact .inr ⟨by simp, _, rfl, nofun⟩
  | cons first rest =>
    rw [← hblocks]
    have hpasses : checkBlocks p function body 0 body.blocks = .ok () ↔ body.Passes p := by
      simpa [Body.Passes] using checkBlocks_iff body.blocks (k := 0)
    cases hcheck : checkBlocks p function body 0 body.blocks with
    | ok =>
      refine .inl ⟨by simp [hblocks], hpasses.mp hcheck, ?_⟩
      simp only [hblocks, List.isEmpty_cons]
      cases body.reachedBlocks.findIdx? (!·) <;> rfl
    | error e =>
      refine .inr ⟨fun h => ?_, e, ?_, ?_⟩
      · rw [hpasses.mpr h.2] at hcheck; cases hcheck
      · simp only [hblocks, List.isEmpty_cons]
        rfl
      · rintro name k rfl
        exact checkBlocks_ne _ hcheck

theorem Body.Passes.reachedBlocks (hne : body.blocks ≠ []) (hp : body.Passes p) :
    (∃ steps, walk? body.blocks.toArray steps [⟨0⟩]
      (Array.replicate body.blocks.length false) = some body.reachedBlocks) ∧
    body.reachedBlocks.size = body.blocks.length ∧
    ∀ k, body.reachedBlocks[k]? = some true ↔ ReflTransGen (BlockStep body.blocks) 0 k := by
  refine reachedBlocks_iff hne fun b hb => ?_
  obtain ⟨k, hk⟩ := mem_iff_getElem?.mp hb
  exact (hp k b hk).targets

theorem verifyBody_eq_ok_iff : verifyBody p function body = .ok () ↔
    body.blocks ≠ [] ∧ body.Passes p ∧
      ∀ k < body.blocks.length, ReflTransGen (BlockStep body.blocks) 0 k := by
  rcases verifyBody_cases p function body with ⟨hne, hp, h⟩ | ⟨hno, e, h, _⟩
  · obtain ⟨_, hsize, hmarks⟩ := hp.reachedBlocks hne
    simp only [h, hne, hp, ← hsize, ← (Body.findIdx?_unmarked hmarks).1, ne_eq, not_false_iff,
      true_and]
    cases body.reachedBlocks.findIdx? (!·) <;> simp
  · rw [h]
    exact ⟨nofun, fun ⟨hne, hp, _⟩ => absurd ⟨hne, hp⟩ hno⟩

theorem verifyBody_eq_unreachable_iff :
    verifyBody p function body = .error (.unreachableBlock name k) ↔
      name = function ∧ body.blocks ≠ [] ∧ body.Passes p ∧ k < body.blocks.length ∧
        ¬ ReflTransGen (BlockStep body.blocks) 0 k ∧
        ∀ j < k, ReflTransGen (BlockStep body.blocks) 0 j := by
  rcases verifyBody_cases p function body with ⟨hne, hp, h⟩ | ⟨hno, e, h, he⟩
  · obtain ⟨_, hsize, hmarks⟩ := hp.reachedBlocks hne
    simp only [h, hne, hp, ← hsize, ← (Body.findIdx?_unmarked hmarks).2, ne_eq, not_false_iff,
      true_and]
    cases body.reachedBlocks.findIdx? (!·) <;> simp [eq_comm]
  · rw [h]
    exact ⟨fun h => absurd (Except.error.inj h) (he name k),
      fun ⟨_, hne, hp, _⟩ => absurd ⟨hne, hp⟩ hno⟩

/-- Verification accepts a body just if it has blocks, each of them passes the checks on its own,
and each can be reached from the first. If blocks cannot be reached the first of them is reported.
The walk that finds this out comes to its end and looks at no block that is not there. -/
theorem verifyBody_decides (p : Program) (function : String) (body : Body) :
    (verifyBody p function body = .ok () ↔ body.blocks ≠ [] ∧ body.Passes p ∧
      ∀ k < body.blocks.length, ReflTransGen (BlockStep body.blocks) 0 k) ∧
    (∀ name k, verifyBody p function body = .error (.unreachableBlock name k) ↔
      name = function ∧ body.blocks ≠ [] ∧ body.Passes p ∧ k < body.blocks.length ∧
        ¬ ReflTransGen (BlockStep body.blocks) 0 k ∧
        ∀ j < k, ReflTransGen (BlockStep body.blocks) 0 j) ∧
    (body.blocks ≠ [] → body.Passes p → ∃ steps, Body.walk? body.blocks.toArray steps [⟨0⟩]
      (Array.replicate body.blocks.length false) = some body.reachedBlocks) :=
  ⟨verifyBody_eq_ok_iff, fun _ _ => verifyBody_eq_unreachable_iff,
    fun hne hp => (hp.reachedBlocks hne).1⟩

end StackBackend
