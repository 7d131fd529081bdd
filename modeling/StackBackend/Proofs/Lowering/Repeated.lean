import StackBackend.Proofs.Lowering.Operands

/-! Lowering once more. A step that is repeated with a pool that has all its strings already
drafts the same code and leaves the pool as it is: each string is found where it was put the
first time. The program may have got code in the meantime, which lowering never looks at. -/

namespace StackBackend

open Lower

variable {α β : Type}
variable {m m' : Lower α} {pool : Array String} {text : String}

/-! ## Strings -/

theorem poolIndex?_eq {i : Nat} (hnodup : pool.toList.Nodup) (hi : pool[i]? = some text) :
    poolIndex? pool text = some i := by
  cases hj : poolIndex? pool text with
  | none => exact absurd (Array.mem_of_getElem? hi).val (Emits.not_mem_of_poolIndex? hj)
  | some j =>
    have hij : pool.toList[i]? = pool.toList[j]? := by
      rw [Array.getElem?_toList, Array.getElem?_toList, hi, Emits.getElem?_poolIndex hj]
    rw [(List.getElem?_inj (Array.getElem?_eq_some_iff.mp hi).1 hnodup).mp hij]

theorem nodup_intern (h : pool.toList.Nodup) :
    (intern pool text).2.toList.Nodup := by
  unfold intern
  split <;> rename_i hnone
  · exact h
  · rw [Array.toList_push, List.nodup_append]
    refine ⟨h, List.pairwise_singleton _ _, fun a ha b hb heq => ?_⟩
    cases List.mem_singleton.mp hb
    exact Emits.not_mem_of_poolIndex? hnone (heq ▸ ha)

theorem intern_again {later : Array String} (hnodup : later.toList.Nodup)
    (h : (intern pool text).2.toList <+: later.toList) :
    intern later text = ((intern pool text).1, later) := by
  have hentry := Emits.getElem?_of_prefix h (Emits.intern_spec pool text).2
  rw [Array.getElem?_toList] at hentry
  rw [intern, poolIndex?_eq hnodup hentry]

/-! ## Steps -/

/-- The second step does what the first one did, with a pool that has the strings already. -/
structure Repeats (m m' : Lower α) : Prop where
  pool : ∀ {s a t}, m.Gives s a t → s.strings.toList <+: t.strings.toList
  nodup : ∀ {s a t}, m.Gives s a t → s.strings.toList.Nodup → t.strings.toList.Nodup
  again : ∀ {s a t}, m.Gives s a t → ∀ {later : Array String}, later.toList.Nodup →
    t.strings.toList <+: later.toList → m'.Gives ⟨s.draft, later⟩ a ⟨t.draft, later⟩

namespace Repeats

theorem bind_of {k k' : α → Lower β} (hm : Repeats m m')
    (hk : ∀ a s t, m.Gives s a t → Repeats (k a) (k' a)) : Repeats (m >>= k) (m' >>= k') where
  pool h := by
    obtain ⟨a, t, h1, h2⟩ := gives_bind.mp h
    exact (hm.pool h1).trans ((hk a _ t h1).pool h2)
  nodup h hs := by
    obtain ⟨a, t, h1, h2⟩ := gives_bind.mp h
    exact (hk a _ t h1).nodup h2 (hm.nodup h1 hs)
  again h _ hnodup hlater := by
    obtain ⟨a, t, h1, h2⟩ := gives_bind.mp h
    have hk := hk a _ t h1
    exact gives_bind.mpr ⟨a, _, hm.again h1 hnodup ((hk.pool h2).trans hlater),
      hk.again h2 hnodup hlater⟩

theorem quiet (h : ∀ {s a t}, m.Gives s a t → t.strings = s.strings ∧
    ∀ later, m'.Gives ⟨s.draft, later⟩ a ⟨t.draft, later⟩) : Repeats m m' where
  pool hm := (h hm).1 ▸ List.prefix_rfl
  nodup hm hs := (h hm).1 ▸ hs
  again hm later _ _ := (h hm).2 later

theorem pure (a : α) : Repeats (pure a) (pure a) :=
  quiet fun h => by
    obtain ⟨rfl, rfl⟩ := gives_pure.mp h
    exact ⟨rfl, fun _ => rfl⟩

theorem lift {x x' : Checked α} (hx : x' = x) : Repeats (liftM x) (liftM x' : Lower α) :=
  quiet fun h => by
    obtain ⟨ha, rfl⟩ := gives_lift.mp h
    exact ⟨rfl, fun _ => gives_lift.mpr ⟨hx.trans ha, rfl⟩⟩

theorem stop {e : CompileError} : Repeats (Lower.stop e) m :=
  quiet fun h => (not_gives_stop h).elim

theorem draft (f : Draft → α × Draft) : Repeats (Lower.draft f) (Lower.draft f) :=
  quiet fun h => by
    obtain ⟨rfl, rfl⟩ := gives_draft.mp h
    exact ⟨rfl, fun _ => rfl⟩

theorem isReachable : Repeats Lower.isReachable Lower.isReachable :=
  quiet fun h => by
    obtain ⟨rfl, rfl⟩ := gives_isReachable.mp h
    exact ⟨rfl, fun _ => rfl⟩

theorem isReferenced (l : BlockId) : Repeats (Lower.isReferenced l) (Lower.isReferenced l) :=
  quiet fun h => by
    obtain ⟨rfl, rfl⟩ := gives_isReferenced.mp h
    exact ⟨rfl, fun _ => rfl⟩

theorem emitString (text : String) : Repeats (Lower.emitString text) (Lower.emitString text) := by
  refine bind_of isReachable fun reachable _ _ _ => ?_
  cases reachable with
  | false => exact pure ()
  | true =>
    refine ⟨fun {s _ _} h => ?_, fun {s _ _} h hs => ?_, fun {s _ _} h later hnodup hlater => ?_⟩
    · cases h
      exact (Emits.intern_spec s.strings text).1
    · cases h
      exact nodup_intern hs
    · cases h
      change Except.ok ((), (⟨s.draft.emit (.string (intern later text).1), (intern later text).2⟩ :
        LowerState)) = _
      rw [intern_again hnodup hlater]
      rfl

theorem same {step : BlockId → Lower α} {l l' : BlockId} (h : l' = l) (hl : Repeats (step l) (step l)) :
    Repeats (step l) (step l') :=
  h ▸ hl

theorem labelled : Labelled (fun _ => True) fun known _ m m' => (∀ l ∈ known, l.2.1 = l.1) → Repeats m m' where
  free _ _ := trivial
  weaken hsub hm hknown := hm fun l hl => hknown l (hsub hl)
  pure a _ := pure a
  bind_of hm hk hknown := bind_of (hm hknown) fun a s t h => hk a s t h hknown
  lift _ ha _ := lift ha
  stop _ _ := stop
  emit _ _ _ := draft _
  terminate hend _ hknown := by
    have heq : ∀ {a a'}, (a, a', ()) ∈ _ → a' = a := fun h => hknown _ h
    cases hend with
    | ret _ => exact draft _
    | throw => exact draft _
    | branch h => rw [heq h]; exact draft _
    | branchIf h h' => rw [heq h, heq h']; exact draft _
    | pushTry h h' => rw [heq h, heq h']; exact draft _
    | popTry h => rw [heq h]; exact draft _
  label hk hknown := bind_of (draft _) fun l _ _ _ => hk l l (List.forall_mem_cons.mpr ⟨rfl, hknown⟩)
  start h hknown := same (hknown _ h) (draft _)
  resume h hknown := same (hknown _ h) (draft _)
  isReachable _ := isReachable
  isReferenced h hknown := same (hknown _ h) (isReferenced _)

theorem lowerEntry {site : Site} {q : Program} (h : q.source = site.program.source)
    (lowered : Option Body) : Repeats site.lowerEntry (site.later q lowered).lowerEntry :=
  (labelled.composes fun text _ => emitString text).lowerEntry Discipline.flat_free (x := ()) (y := ()) trivial
    (.all site .free (fun _ => True) fun _ _ _ _ => trivial) (fun _ _ _ _ => trivial) h lowered nofun

end Repeats

end StackBackend
