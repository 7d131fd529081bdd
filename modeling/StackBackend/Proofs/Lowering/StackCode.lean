import StackBackend.Proofs.Lowering.StackDiscipline

/-! The parts that code is made of, under any discipline of the stack. Two ways that meet have
to bring the same. A cleanup is the place where that is at stake: it is entered with a mark on
top of what its region has produced, or with an exception on top of a mark. -/

namespace StackBackend

open Lower List

variable {i : Inst} {site : Site} {onTrue body : Lower Unit} {typeofSlot subtypeSlot : Nat} {v : Unit}

variable {F : Type} {D : Discipline F} {known : List F} {x y z w : F} {α β : Type}

namespace Discipline

namespace Carries

/-! ## Straight code -/

theorem straight : Straight D D.Moves fun _ x y m _ => ∀ known, D.Carries known m x y where
  plain hi := .plain hi.2
  pure a _ _ := pure a
  bind_of hm hk known := bind_of (hm known) fun a s t h => hk a s t h known
  lift _ _ _ := lift _
  stop _ _ := never not_gives_stop
  emit _ hi _ := emit hi

/-! ## Ways on that are left open -/

theorem aside {l r : BlockId} {s t : LowerState}
    (h : (Lower.startThen l (Lower.terminate i)).Gives s v t) (hs : s.draft.WF) (hne : r ≠ l) :
    t.draft.code r = s.draft.code r ∧ t.draft.isStarted r = s.draft.isStarted r ∧
      t.draft.current = none := by
  have hstarted : (s.draft.start l).2.isStarted r = s.draft.isStarted r := by
    rw [Draft.isStarted_start]
    simp [hne]
  rw [gives_startThen] at h
  split at h
  · rename_i hstarts
    rw [gives_terminate.mp h]
    refine ⟨?_, by rw [Draft.isStarted_terminate, hstarted], Draft.current_terminate _ _⟩
    rw [Draft.code_terminate (hs.start l).currentValid, Draft.code_start, if_neg]
    rw [Draft.current_start, if_pos hstarts]
    intro heq
    exact hne (Ref.ext_index (Option.some.inj heq).symm)
  · rename_i hstarts
    rw [h]
    exact ⟨Draft.code_start .., hstarted, by rw [Draft.current_start, if_neg hstarts]⟩

theorem handlerEnd {join noMatch : BlockId} (hjoin : known[join.index]? = some w)
    (hother : known[noMatch.index]? = some (D.raise x)) (hne : join ≠ noMatch) :
    D.Carries known (Site.handlerEnd join noMatch) z w := by
  refine ⟨fun {s _ t frames} hk h hs => ?_⟩
  obtain ⟨joined, s1, h1, h⟩ := gives_bind.mp h
  obtain ⟨_, s2, h2, h3⟩ := gives_bind.mp h
  obtain ⟨frames1, hf1, hs1⟩ := (start hjoin).fits hk h1 hs
  obtain ⟨frames2, hf2, hs2⟩ :=
    (startThen (y := w) hother (terminate .throw)).fits (hk.trans hf1) h2 hs1
  have hf := hf1.trans hf2
  obtain ⟨hcode, _, hcurrent⟩ := aside h2 hs1.wf hne
  cases joined with
  | true =>
    -- The join has no code yet.
    obtain ⟨hv, rfl⟩ := gives_start.mp h1
    rw [Draft.start_fst, eq_comm, Bool.and_eq_true, Bool.not_eq_true'] at hv
    rw [gives_resume.mp h3]
    refine ⟨frames2, hf, hs2.resume (getElem?_of_isPrefix (hk.trans hf) hjoin) fun _ => ?_⟩
    rw [hcode, Draft.code_start, hs.wf.code_of_not_started join hv.2]
    exact .nil w
  | false =>
    obtain ⟨_, rfl⟩ := gives_pure.mp h3
    exact ⟨frames2, hf, hs2.free hcurrent w⟩

theorem gives_startThen_terminate {l : BlockId} {started : Bool} {s t u : LowerState}
    (h1 : (Lower.start l).Gives s started t) (h2 : (Lower.terminate i).Gives t v u) :
    (Lower.startThen l (Lower.terminate i)).Gives s v u := by
  obtain ⟨rfl, rfl⟩ := gives_start.mp h1
  rw [gives_startThen]
  split
  · exact h2
  · rename_i hnot
    rw [gives_terminate.mp h2]
    simp only [Draft.terminate, Draft.current_start, if_neg hnot]

theorem resumeOrRethrow : D.Carries known Site.resumeOrRethrow (D.raise x) x := by
  refine ⟨fun {s _ t frames} _ h hs => ?_⟩
  simp only [Site.resumeOrRethrow, gives_bind] at h
  obtain ⟨resume, s1, h1, rethrow, s2, h2, _, s3, h3, _, s4, h4, _, s5, h5, _, s6, h6, _, s7, h7,
    _, s8, h8, h9⟩ := h
  -- Both labels start with the value that tells the two ways apart.
  obtain ⟨f1, fresh1, _, _⟩ := LowerState.Forward.of_label h1 hs.wf
  obtain ⟨f2, fresh2, _, hne⟩ := LowerState.Forward.of_label h2 f1.wf
  obtain ⟨hs1, _, hresume⟩ := hs.of_label h1 (D.raise x)
  obtain ⟨hs2, _, hrethrow⟩ := hs1.of_label h2 (D.raise x)
  have hresume := getElem?_of_isPrefix (prefix_append _ [D.raise x]) hresume
  have hdup : D.Moves .dup (D.raise x) (D.raise (D.raise x)) := .plain (n := 1) (k := 2) (x := x) rfl
  obtain ⟨frames3, hf3, hs3⟩ := (emitAll (.cons hdup (.cons (.push rfl)
    (.cons (.combine rfl) (.nil _))))).fits prefix_rfl h3 hs2
  obtain ⟨frames4, hf4, hs4⟩ := (branchIf (y := x) hresume hrethrow).fits hf3 h4 hs3
  obtain ⟨frames5, hf5, hs5⟩ := (start hresume).fits (hf3.trans hf4) h5 hs4
  have hk5 := hf3.trans (hf4.trans hf5)
  obtain ⟨frames6, hf6, hs6⟩ := (emit (.pop rfl)).fits hk5 h6 hs5
  have hk6 := hk5.trans hf6
  have hthrow := gives_startThen_terminate h7 h8
  obtain ⟨frames8, hf8, hs8⟩ := (startThen (y := x) hrethrow (terminate .throw)).fits hk6 hthrow hs6
  have hk8 := hk6.trans hf8
  -- The way on is there just if it was begun above.
  have fresh4 : s4.draft.isStarted resume = false := by
    have f3 := (Tidy.emitAll (by simp [Inst.isTerminator])).forward h3 f2.wf
    have hresume3 := f3.kept (f2.kept fresh1)
    obtain ⟨f4, _⟩ := LowerState.Forward.of_terminate h4 f3.wf
      (by simpa [Inst.successors] using ⟨hresume3.1, (f3.kept fresh2).1⟩)
    exact (f4.kept hresume3).2
  obtain ⟨hcode, hstarted, _⟩ := aside hthrow hs6.wf (hne resume fresh1.1)
  rw [gives_resume.mp h9]
  refine ⟨frames8, (prefix_append ..).trans ((prefix_append ..).trans hk8),
    hs8.resume (getElem?_of_isPrefix hk8 hresume) fun hopen => ?_⟩
  rw [hcode]
  refine hs6.current _ _ ?_ (getElem?_of_isPrefix hk6 hresume)
  rw [hstarted, gives_emit.mp h6, Draft.isStarted_emit, (gives_start.mp h5).2,
    Draft.isStarted_start, fresh4] at hopen
  rw [gives_emit.mp h6, Draft.current_emit, (gives_start.mp h5).2, Draft.current_start,
    if_pos (by simpa using hopen)]

end Carries

/-! ## Labels -/

variable {p q : Point F} {marks : Marks F} {frames frames' : List F} {s t : LowerState} {l l' : BlockId}
  {due due' : List BlockId}

theorem leaps_of_leap {i' : Inst} (h : Leap D marks i i' x)
    (hm : ∀ e ∈ marks, frames[e.1.index]? = some e.2.2) : D.Leaps frames i x := by
  cases h with
  | ret hx => exact .ret hx
  | throw => exact .throw
  | branch h => exact .branch (hm _ h)
  | branchIf h h' => exact .branchIf (hm _ h) (hm _ h')
  | pushTry h h' => exact .pushTry (hm _ h) (hm _ h')
  | popTry h => exact .popTry (hm _ h)

/-- Labels start from the facts that they are marked with. Where no block is open every fact
will do. -/
structure Holds (D : Discipline F) (frames : List F) (marks : Marks F) (p : Point F)
    (s : LowerState) : Prop where
  marked : ∀ e ∈ marks, frames[e.1.index]? = some e.2.2
  fits : ∀ x, (∀ y ∈ p.here, x = y) → D.Fits frames s.draft x
  nodup : p.due.Nodup
  given : ∀ l ∈ p.due, l.index < frames.length

/-- The step goes from one point to another. -/
structure Tracks (D : Discipline F) (marks : Marks F) (p q : Point F) (m : Lower α) : Prop where
  holds : ∀ {s a t frames}, m.Gives s a t → D.Holds frames marks p s →
    ∃ frames', frames <+: frames' ∧ D.Holds frames' marks q t

namespace Holds

theorem next (h : D.Holds frames marks p s) (hf : frames <+: frames') (hdue : q.due.Sublist p.due)
    (hfits : ∀ x, (∀ y ∈ q.here, x = y) → D.Fits frames' t.draft x) : D.Holds frames' marks q t where
  marked e he := getElem?_of_isPrefix hf (h.marked e he)
  fits := hfits
  nodup := h.nodup.sublist hdue
  given l hl := (h.given l (hdue.subset hl)).trans_le hf.length_le

theorem label (h : D.Holds frames marks p s) (hl : Lower.label.Gives s l t) (z : F) :
    D.Holds (frames ++ [z]) ((l, l', z) :: marks) ⟨p.here, l :: p.due⟩ t := by
  have hfits : D.Fits frames s.draft (p.here.getD z) :=
    h.fits _ fun y hy => by rw [Option.mem_def.mp hy, Option.getD_some]
  obtain ⟨_, hindex, hz⟩ := hfits.of_label hl z
  refine ⟨forall_mem_cons.mpr ⟨hz, fun e he => ?_⟩, fun x hx => ?_, ?_, ?_⟩
  · exact getElem?_of_isPrefix (prefix_append ..) (h.marked e he)
  · exact ((h.fits x hx).of_label hl z).1
  · refine nodup_cons.mpr ⟨fun hmem => ?_, h.nodup⟩
    have := h.given l hmem
    omega
  · intro x hx
    rw [length_append, length_singleton]
    rcases mem_cons.mp hx with rfl | hx
    · omega
    · exact (h.given x hx).trans (Nat.lt_succ_self _)

theorem start {here : Option F} (h : D.Holds frames marks ⟨none, l :: due⟩ s)
    (hl : (l, l', z) ∈ marks) (hdue : due'.Sublist due)
    (hhere : here = some z ∨ (s.draft.start l).2.current = none) :
    D.Holds frames marks ⟨here, due'⟩ ⟨(s.draft.start l).2, s.strings⟩ := by
  have hfits : D.Fits frames (s.draft.start l).2 z := (h.fits z nofun).start (h.marked _ hl)
  refine h.next prefix_rfl (hdue.cons l) fun x hx => ?_
  rcases hhere with rfl | hc
  · exact hx z rfl ▸ hfits
  · exact hfits.free hc x

end Holds

namespace Tracks

theorem leap {i' : Inst} (hi : Leap D marks i i' x) :
    D.Tracks marks ⟨some x, due⟩ ⟨none, due⟩ (Lower.terminate i) := by
  refine ⟨fun h hs => ⟨_, prefix_rfl, ?_⟩⟩
  rw [gives_terminate.mp h]
  exact hs.next prefix_rfl (.refl _) fun y _ =>
    (hs.fits x fun y hy => Option.some.inj hy).terminate (leaps_of_leap hi hs.marked) y

theorem startThen {m : Lower Unit} {here : Option F} (hl : (l, l', z) ∈ marks)
    (hdue : due'.Sublist due) (hm : D.Tracks marks ⟨some z, due⟩ ⟨here, due'⟩ m) :
    D.Tracks marks ⟨none, l :: due⟩ ⟨here, due'⟩ (Lower.startThen l m) := by
  refine ⟨fun h hs => ?_⟩
  rw [gives_startThen] at h
  split at h <;> rename_i hst
  · exact hm.holds h (hs.start hl (.refl _) (.inl rfl))
  · rw [h]
    exact ⟨_, prefix_rfl, hs.start hl hdue (.inr (by rw [Draft.start_of_not hst]))⟩

theorem tracked : Tracked D D.Moves (fun _ x y m _ => ∀ known, D.Carries known m x y)
    fun marks p q _ m _ => D.Tracks marks p q m where
  toStraight := Carries.straight
  part hm := by
    refine ⟨fun h hs => ?_⟩
    obtain ⟨frames', hf, ht⟩ := (hm []).fits nil_prefix h (hs.fits _ (by simp))
    exact ⟨frames', hf, hs.next hf (.refl _) (by simpa using ht)⟩
  whole hm known := by
    refine ⟨fun _ h hs => ?_⟩
    obtain ⟨frames', hf, ht⟩ := hm.holds h ⟨nofun, by simpa using hs, .nil, nofun⟩
    exact ⟨frames', hf, ht.fits _ (by simp)⟩
  andThen hm hk := by
    refine ⟨fun h hs => ?_⟩
    obtain ⟨a, u, h1, h2⟩ := gives_bind.mp h
    obtain ⟨frames1, hf1, hu⟩ := hm.holds h1 hs
    obtain ⟨frames2, hf2, ht⟩ := (hk a _ u h1).holds h2 hu
    exact ⟨frames2, hf1.trans hf2, ht⟩
  reorder hperm hm := ⟨fun h hs => hm.holds h { hs with
    nodup := hperm.nodup_iff.mp hs.nodup, given := fun l hl => hs.given l (hperm.mem_iff.mpr hl) }⟩
  ask _ hstate := ⟨fun h hs => ⟨_, prefix_rfl, hstate h ▸ hs⟩⟩
  relax hm := by
    refine ⟨fun h hs => ?_⟩
    obtain ⟨frames', hf, ht⟩ := hm.holds h hs
    exact ⟨frames', hf, { ht with fits := fun x _ => ht.fits x nofun }⟩
  terminate hleap _ := leap hleap
  label z hk := by
    refine ⟨fun h hs => ?_⟩
    obtain ⟨l, u, h1, h2⟩ := gives_bind.mp h
    obtain ⟨frames', hf, ht⟩ := (hk l l).holds h2 (hs.label h1 z)
    exact ⟨frames', (prefix_append ..).trans hf,
      { ht with marked := fun e he => ht.marked e (.tail _ he) }⟩
  labels z u hk := by
    refine ⟨fun h hs => ?_⟩
    obtain ⟨a, s1, h1, h⟩ := gives_bind.mp h
    obtain ⟨b, s2, h2, h3⟩ := gives_bind.mp h
    have hs2 : D.Holds _ ((b, b, u) :: (a, a, z b) :: _) _ _ := (hs.label h1 (z b)).label h2 u
    obtain ⟨frames', hf, ht⟩ := (hk a a b b).holds h3 ⟨fun e he => hs2.marked e (by simp_all [or_left_comm]),
      hs2.fits, (List.Perm.swap ..).nodup_iff.mp hs2.nodup, fun l hl => hs2.given l (by simp_all [or_left_comm])⟩
    exact ⟨frames', ((prefix_append ..).trans (prefix_append ..)).trans hf,
      { ht with marked := fun e he => ht.marked e (.tail _ (.tail _ he)) }⟩
  start hl := by
    refine ⟨fun h hs => ⟨_, prefix_rfl, ?_⟩⟩
    rw [(gives_start.mp h).2]
    exact hs.start hl (.refl _) (.inl rfl)
  startThen hl hm := startThen hl (.refl _) hm
  ifReachable hm := by
    refine ⟨fun {_ _ _ frames} h hs => ?_⟩
    obtain ⟨reachable, u, h1, h2⟩ := gives_bind.mp h
    obtain ⟨hr, rfl⟩ := gives_isReachable.mp h1
    split at h2
    · exact hm.holds h2 hs
    · rename_i hnot
      obtain ⟨_, rfl⟩ := gives_pure.mp h2
      rw [hr, Draft.isReachable, Bool.not_eq_true, Option.isSome_eq_false_iff,
        Option.isNone_iff_eq_none] at hnot
      have hfits := hs.fits _ fun y hy => Option.some.inj hy
      exact ⟨frames, prefix_rfl, hs.next prefix_rfl (.refl _) fun y _ => hfits.free hnot y⟩
  isReferenced _ := ⟨fun h hs => ⟨_, prefix_rfl, (gives_isReferenced.mp h).2 ▸ hs⟩⟩
  resumeOrRethrow _ := .resumeOrRethrow
  handlerEnd {_ _ _ _ _ _ x _} he hh := by
    refine ⟨fun h hs => ?_⟩
    have hne := ne_of_not_mem_cons (nodup_cons.mp hs.nodup).1
    obtain ⟨frames', hf, ht⟩ := (Carries.handlerEnd (hs.marked _ he) (hs.marked _ hh) hne).fits
      prefix_rfl h (hs.fits x nofun)
    exact ⟨frames', hf, hs.next hf ((sublist_cons_self ..).trans (sublist_cons_self ..))
      (by simpa using ht)⟩

end Tracks

open Tracks in
theorem Carries.composes : Composes D D.Moves (fun _ x y m _ => ∀ known, D.Carries known m x y)
    (fun marks p q _ m _ => D.Tracks marks p q m) :=
  have hloose : Loose D D.Moves (fun _ x y m _ => ∀ known, D.Carries known m x y)
      (fun marks p q _ m _ => D.Tracks marks p q m) := {
    toTracked := tracked
    leap := .leap
    startOrSkip := fun hl hm => .startThen hl (nil_sublist _) hm }
  hloose.composes fun _ _ => tracked.emitString (fun _ => .push rfl) fun h _ => .quiet h

end Discipline

end StackBackend
