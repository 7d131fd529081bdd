import StackBackend.Proofs.Lowering.Verified

/-! The string pool. It keeps what it had, each string that it gets is new to it, and none gets
in but with an instruction that pushes it. So what an instruction pushes is settled when it is
laid, whatever comes into the pool later. -/

namespace StackBackend

open Lower

variable {α : Type} {base : List String} {literal : String → Prop} {s t : LowerState} {i : Inst}

def Grown (base pool : List String) : Prop :=
  ∃ new, base ++ new = pool ∧ new.Nodup ∧ ∀ text ∈ new, text ∉ base

theorem Grown.trans {pool later : List String} (h : Grown base pool) (h' : Grown pool later) :
    Grown base later := by
  obtain ⟨new, rfl, hnew, hfresh⟩ := h
  obtain ⟨new', rfl, hnew', hfresh'⟩ := h'
  refine ⟨new ++ new', by rw [List.append_assoc], ?_, ?_⟩
  · refine List.nodup_append.mpr ⟨hnew, hnew', fun a ha b hb heq => ?_⟩
    exact hfresh' b hb (List.mem_append_right _ (heq ▸ ha))
  · refine List.forall_mem_append.mpr ⟨hfresh, fun text htext hbase => ?_⟩
    exact hfresh' text htext (List.mem_append_left _ hbase)

theorem Grown.kept {pool later : Array String} {k : Nat} {text : String}
    (h : Grown pool.toList later.toList) (hk : pool[k]? = some text) : later[k]? = some text := by
  obtain ⟨new, hnew, _⟩ := h
  rw [← Array.getElem?_toList]
  exact Emits.getElem?_of_prefix ⟨new, hnew⟩ hk

theorem grown_intern (pool : Array String) (text : String) :
    Grown pool.toList (intern pool text).2.toList := by
  unfold intern
  split <;> rename_i h
  · exact ⟨[], List.append_nil _, .nil, nofun⟩
  · exact ⟨[text], (Array.toList_push).symm, List.pairwise_singleton _ _, by
      simpa using Emits.not_mem_of_poolIndex? h⟩

/-- The pool has what it had, and the strings that the code pushes. -/
structure Pooled (base : List String) (literal : String → Prop) (s : LowerState) : Prop where
  grown : Grown base s.strings.toList
  valid : s.draft.CurrentValid
  pushed : ∀ l k, .string k ∈ s.draft.code l → ∃ text, literal text ∧ s.strings[k]? = some text
  used : ∀ k, base.length ≤ k → k < s.strings.size → ∃ l, .string k ∈ s.draft.code l

structure Pools (base : List String) (literal : String → Prop) (m : Lower α) : Prop where
  keeps : ∀ {s a t}, m.Gives s a t → Pooled base literal s → Pooled base literal t

namespace Pools

theorem draft {f : Draft → α × Draft} (hf : ∀ d : Draft, d.CurrentValid → (f d).2.CurrentValid ∧
    ∀ l k, .string k ∈ (f d).2.code l ↔ .string k ∈ d.code l) :
    Pools base literal (Lower.draft f) := by
  refine ⟨fun h hs => ?_⟩
  obtain ⟨_, rfl⟩ := gives_draft.mp h
  obtain ⟨hvalid, hcode⟩ := hf _ hs.valid
  exact ⟨hs.grown, hvalid, fun l k hk => hs.pushed l k ((hcode l k).mp hk), fun k hk hlt => by
    simpa only [hcode] using hs.used k hk hlt⟩

theorem mem_emit {d : Draft} {j : Inst} {l : BlockId} (hd : d.CurrentValid) (hj : j ∈ d.code l) :
    j ∈ (d.emit i).code l := by
  rw [Draft.code_emit hd]
  split
  · exact List.mem_append_left _ hj
  · exact hj

theorem same {m : Lower α} (h : ∀ {s a t}, m.Gives s a t → t = s) : Pools base literal m :=
  ⟨fun hm hs => h hm ▸ hs⟩

theorem emitString {text : String} (htext : literal text) :
    Pools base literal (Lower.emitString text) := by
  refine ⟨fun {s _ t} h hs => ?_⟩
  obtain ⟨reachable, u, h1, h⟩ := gives_bind.mp h
  obtain ⟨rfl, rfl⟩ := gives_isReachable.mp h1
  split at h <;> rename_i hreach
  swap
  · rwa [(gives_pure.mp h).2]
  obtain ⟨n, hn⟩ := Option.isSome_iff_exists.mp hreach
  obtain rfl : t = ⟨u.draft.emit (.string (intern u.strings text).1), (intern u.strings text).2⟩ := by
    cases h
    rfl
  refine ⟨hs.grown.trans (grown_intern _ _), fun k hk => ?_, fun l k hk => ?_, fun k hk hsize => ?_⟩
  · rw [Draft.size_emit]
    exact hs.valid k (by simpa using hk)
  · rcases Draft.mem_code_emit hk with hk | heq
    · obtain ⟨old, hliteral, hold⟩ := hs.pushed l k hk
      exact ⟨old, hliteral, (grown_intern _ _).kept hold⟩
    · cases heq
      exact ⟨text, htext, (Emits.intern_spec _ _).2⟩
  · by_cases hold : k < u.strings.size
    · obtain ⟨l, hl⟩ := hs.used k hk hold
      exact ⟨l, mem_emit hs.valid hl⟩
    · -- Only a string that was not there before makes the pool longer.
      obtain rfl : k = (intern u.strings text).1 := by
        revert hsize
        unfold intern
        split
        · exact fun hsize => absurd hsize hold
        · intro hsize
          rw [Array.size_push] at hsize
          omega
      refine ⟨⟨n⟩, ?_⟩
      rw [Draft.code_emit hs.valid, if_pos hn]
      simp

theorem labelled : Labelled (fun i => ∀ k, i ≠ .string k) fun _ _ m _ => Pools base literal m where
  free i hi k := by rintro rfl; cases hi
  weaken _ h := h
  pure a := same fun h => (gives_pure.mp h).2
  bind_of hm hk := ⟨fun h hs => by
    obtain ⟨a, u, h1, h2⟩ := gives_bind.mp h
    exact (hk a _ u h1).keeps h2 (hm.keeps h1 hs)⟩
  lift _ _ := same fun h => (gives_lift.mp h).2
  stop _ := ⟨fun h => (not_gives_stop h).elim⟩
  emit _ hi := draft fun d hd => by
    refine ⟨fun n hn => by simpa using hd n (by simpa using hn), fun l k => ⟨fun hk => ?_, mem_emit hd⟩⟩
    exact (Draft.mem_code_emit hk).resolve_right fun h => hi k h.symm
  terminate _ hi := draft fun d hd => by
    refine ⟨fun n hn => by simp at hn, fun l k => ⟨fun hk => ?_, fun hk => ?_⟩⟩
    · exact (Draft.mem_code_terminate hk).resolve_right fun h => hi k h.symm
    · rw [Draft.code_terminate hd]
      split
      · exact List.mem_append_left _ hk
      · exact hk
  label hk := ⟨fun h hs => by
    obtain ⟨l, u, h1, h2⟩ := gives_bind.mp h
    refine (hk l l).keeps h2 ((draft fun d hd => ⟨fun n hn => ?_, by simp⟩).keeps h1 hs)
    exact (hd n hn).trans (by simp)⟩
  start _ := draft fun d hd => by
    refine ⟨fun n hn => ?_, by simp⟩
    rw [Draft.current_start] at hn
    split at hn <;> cases hn
    rename_i hstarts
    rw [Draft.start_fst, Bool.and_eq_true] at hstarts
    rw [Draft.size_start]
    exact Draft.lt_size_of_isReferenced hstarts.1
  resume _ := draft fun d hd => by
    refine ⟨fun n hn => ?_, by simp⟩
    rw [Draft.current_resume] at hn
    split at hn <;> cases hn
    rename_i hopen
    rw [Draft.labels_resume]
    exact Draft.lt_size_of_isStarted (Bool.and_eq_true _ _ ▸ hopen).1
  isReachable := same fun h => (gives_isReachable.mp h).2
  isReferenced _ := same fun h => (gives_isReferenced.mp h).2

end Pools

/-! ## Functions -/

def FunctionDecl.Says (f : FunctionDecl) (text : String) : Prop :=
  ∃ e ∈ f.exprs, ∃ ty, Node.expr (.literal ty (.string text)) ∈ e.nodes

def Body.Pushes (body : Body) (k : Nat) : Prop := ∃ b ∈ body.blocks, .string k ∈ b.instructions

theorem Pools.lowerEntry (site : Site) : Pools base site.function.Says site.lowerEntry :=
  (Pools.labelled.loose.walks (N := fun n => ∃ e ∈ site.function.exprs, n ∈ e.nodes)
    (.all site _ _ fun _ _ _ h => h) rfl fun {ty _ _} ⟨e, he, hn⟩ => .emitString ⟨e, he, ty, hn⟩).lowerEntry
      (o := none) (x := ()) (y := ()) trivial (fun e he _ hn => ⟨e, he, hn⟩) (.inl Discipline.flat_free)

variable {p q : Program} {options : CompileOptions} {f : FunctionDecl} {strings pool : Array String}
  {body : Body}

/-- The pool has grown by what the code of the functions pushes, and by no more. -/
structure Supplies (fs : List FunctionDecl) (bodies : List (FunctionId × Body))
    (strings pool : Array String) : Prop where
  grown : Grown strings.toList pool.toList
  said : ∀ entry ∈ bodies, ∃ f ∈ fs, f.id = entry.1 ∧ ∀ k, entry.2.Pushes k →
    ∃ text, f.Says text ∧ pool[k]? = some text
  used : ∀ k, strings.size ≤ k → k < pool.size → ∃ entry ∈ bodies, entry.2.Pushes k

end StackBackend
