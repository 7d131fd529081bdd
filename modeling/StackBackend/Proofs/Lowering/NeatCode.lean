import StackBackend.Proofs.Lowering.Composition
import StackBackend.Proofs.Lowering.DraftInvariant

/-! Lowering is neat: whatever an expression starts it ends, and every label it
branches to it starts itself. So it leaves the debts of the draft around it as they
were. Each control construct is shown neat for arbitrary neat parts, and the
expressions follow by induction. -/

namespace StackBackend

open Lower
open Draft (Built)

variable {i : Inst} {v : Unit} {ty : Ty} {is : List Inst} {onTrue body : Lower Unit}

variable {α β : Type} {d0 : Draft} {n : Nat} {owed parked : Set BlockId}
  {s t : LowerState} {l a b : BlockId}
variable {f : α → Lower β} {m : Lower α}

/-- The step keeps the debts of any draft it runs on. -/
structure Neat (m : Lower α) : Prop where
  keeps : ∀ {d0 n owed parked s a t}, m.Gives s a t → Built d0 n owed parked s.draft →
    Built d0 n owed parked t.draft

/-! ## Steps that touch labels -/

namespace Draft.Built

theorem of_label (h : Lower.label.Gives s l t) (hs : Built d0 n owed parked s.draft) :
    Built d0 (l.index + 1) owed parked t.draft ∧ n ≤ l.index ∧ d0.labels.size ≤ l.index ∧
      t.draft.current = s.draft.current := by
  obtain ⟨rfl, rfl⟩ := gives_label.mp h
  exact ⟨hs.label, hs.size, hs.grows.size, rfl⟩

theorem of_terminate (h : (Lower.terminate i).Gives s v t)
    (hs : Built d0 n owed parked s.draft) (hi : i.isTerminator = true)
    (ht : ∀ t ∈ i.successors, t.index < n) :
    Built d0 n ({t | t ∈ i.successors} ∪ owed) parked t.draft ∧ t.draft.current = none := by
  rw [gives_terminate.mp h]
  exact ⟨hs.terminate hi ht, Draft.current_terminate _ _⟩

theorem of_leap (h : (Lower.terminate i).Gives s v t)
    (hs : Built d0 n owed parked s.draft) (hi : i.isTerminator = true) (hl : i.successors = [a])
    (ha : a.index < n) :
    Built d0 n (insert a owed) parked t.draft ∧ t.draft.current = none := by
  obtain ⟨hb, hc⟩ := hs.of_terminate h hi (by rw [hl]; simpa using ha)
  refine ⟨hb.mono le_rfl ?_ subset_rfl, hc⟩
  rintro x (hx | hx)
  · rw [Set.mem_ofPred_eq, hl, List.mem_singleton] at hx; exact .inl hx
  · exact .inr hx

theorem of_fork (h : (Lower.terminate i).Gives s v t)
    (hs : Built d0 n owed parked s.draft) (hi : i.isTerminator = true)
    (hl : i.successors = [a, b]) (ha : a.index < n) (hb : b.index < n) :
    Built d0 n (insert a (insert b owed)) parked t.draft ∧ t.draft.current = none := by
  obtain ⟨hb, hc⟩ := hs.of_terminate h hi (by rw [hl]; simpa using ⟨ha, hb⟩)
  refine ⟨hb.mono le_rfl ?_ subset_rfl, hc⟩
  rintro x (hx | hx)
  · rw [Set.mem_ofPred_eq, hl, List.mem_cons, List.mem_singleton] at hx
    exact hx.imp_right .inl
  · exact .inr (.inr hx)

theorem of_start {v : Bool} (h : (Lower.start l).Gives s v t)
    (hs : Built d0 n (insert l owed) parked s.draft) (hl : d0.labels.size ≤ l.index)
    (hc : ∀ c, s.draft.current = some c → ⟨c⟩ ∈ parked) :
    Built d0 n owed parked t.draft ∧
      t.draft.current = if v then some l.index else none := by
  obtain ⟨rfl, rfl⟩ := gives_start.mp h
  exact ⟨hs.start hl hc, Draft.current_start _ _⟩

theorem of_startThen {m : Lower Unit} (h : (Lower.startThen l m).Gives s v t)
    (hs : Built d0 n (insert l owed) parked s.draft) (hl : d0.labels.size ≤ l.index)
    (hc : ∀ c, s.draft.current = some c → ⟨c⟩ ∈ parked) :
    (∃ s', Built d0 n owed parked s'.draft ∧ s'.draft.isStarted l = true ∧ m.Gives s' v t) ∨
      Built d0 n owed parked t.draft ∧ t.draft.current = none := by
  have hb : Built d0 n owed parked (s.draft.start l).2 := hs.start hl hc
  rw [gives_startThen] at h
  split at h <;> rename_i hst
  · exact .inl ⟨_, hb, by rw [Draft.isStarted_start, hst]; simp, h⟩
  · rw [h]
    exact .inr ⟨hb, by rw [Draft.start_of_not hst]⟩

theorem of_arm {m : Lower Unit}
    (h : (Lower.startThen l (m >>= fun _ => Lower.branch b)).Gives s v t) (hm : Neat m)
    (hs : Built d0 n (insert l owed) parked s.draft) (hl : d0.labels.size ≤ l.index)
    (hb : b.index < n) (hc : s.draft.current = none) :
    Built d0 n (insert b owed) parked t.draft ∧ t.draft.current = none := by
  rcases hs.of_startThen h hl (fun c hn => by rw [hc] at hn; cases hn) with
    ⟨s', hs', _, h⟩ | ⟨hs', hc'⟩
  · obtain ⟨_, s1, hm', hbr⟩ := gives_bind.mp h
    exact (hm.keeps hm' hs').of_leap hbr rfl rfl hb
  · exact ⟨hs'.mono le_rfl (Set.subset_insert b owed) subset_rfl, hc'⟩

end Draft.Built

namespace Neat

/-! ## Straight code -/

theorem pure (a : α) : Neat (pure a : Lower α) := by
  refine ⟨fun h hs => ?_⟩
  obtain ⟨_, rfl⟩ := gives_pure.mp h
  exact hs

theorem bind_of (hm : Neat m) (hf : ∀ a s t, m.Gives s a t → Neat (f a)) : Neat (m >>= f):= by
  refine ⟨fun h hs => ?_⟩
  obtain ⟨a, t, h1, h2⟩ := gives_bind.mp h
  exact (hf a _ t h1).keeps h2 (hm.keeps h1 hs)

theorem lift (x : Checked α) : Neat (liftM x : Lower α) := by
  refine ⟨fun h hs => ?_⟩
  obtain ⟨_, rfl⟩ := gives_lift.mp h
  exact hs

theorem stop (e : CompileError) : Neat (Lower.stop e : Lower α) :=
  ⟨fun h => (not_gives_stop h).elim⟩

theorem emit (hi : i.isTerminator = false) : Neat (Lower.emit i) := by
  refine ⟨fun h hs => ?_⟩
  rw [gives_emit.mp h]
  exact hs.emit hi

theorem leave (hi : i.isTerminator = true) (hs : i.successors = []) : Neat (Lower.terminate i) := by
  refine ⟨fun h hb => ?_⟩
  have hb := (hb.of_terminate h hi (by rw [hs]; simp)).1
  rw [hs] at hb
  exact hb.mono le_rfl (by simp) subset_rfl

theorem straight : Straight .free (fun _ _ _ => True) fun _ _ _ m _ => Neat m where
  plain _ := trivial
  pure a _ := pure a
  bind_of := bind_of
  lift _ _ := lift _
  stop _ := stop _
  emit hi _ := emit hi

theorem emitAll (hi : ∀ i ∈ is, i.isTerminator = false) : Neat (Lower.emitAll is) :=
  straight.emitAll (x := ()) fun i h => ⟨hi i h, trivial⟩

theorem unitIfValue (mode : Mode) : Neat (Lower.unitIfValue mode) :=
  straight.unitIfValue (x := ()) mode

/-! ## Control -/

theorem grows {a : α} (hm : Neat m) (h : m.Gives s a t) (hs : s.draft.WF) :
    s.draft.Grows t.draft :=
  (hm.keeps h (.of_wf hs)).grows

theorem isStarted_mono {a : α} (hm : Neat m) (h : m.Gives s a t) (hs : s.draft.WF)
    (hl : s.draft.isStarted l = true) : t.draft.isStarted l = true := by
  rw [(hm.grows h hs).started l (Draft.lt_size_of_isStarted hl)]
  exact hl

theorem loop {test : Lower Unit} (ht : Neat test) (hb : Neat body) (mode : Mode) :
    Neat (Site.loop test body mode) := by
  refine ⟨fun h hs => ?_⟩
  simp only [Site.loop, gives_bind] at h
  obtain ⟨header, s1, h1, bodyLabel, s2, h2, exit, s3, h3, _, s4, h4, h5⟩ := h
  obtain ⟨b1, n1, z1, _⟩ := hs.of_label h1
  obtain ⟨b2, n2, z2, _⟩ := b1.of_label h2
  obtain ⟨b3, n3, z3, _⟩ := b2.of_label h3
  obtain ⟨b4, c4⟩ := b3.of_leap h4 rfl rfl (show header.index < _ by omega)
  rcases b4.of_startThen h5 z1 (by simp [c4]) with ⟨s5, b5, started5, h⟩ | ⟨b5, _⟩
  swap
  · exact b5.mono (by omega) subset_rfl subset_rfl
  simp only [gives_bind] at h
  obtain ⟨_, s6, h6, _, s7, h7, _, s8, h8, h9⟩ := h
  have b6 := ht.keeps h6 b5
  obtain ⟨b7, c7⟩ := b6.of_fork h7 rfl rfl (show bodyLabel.index < _ by omega)
    (show exit.index < _ by omega)
  obtain ⟨b8, c8⟩ := b7.of_arm h8 hb z2 (show header.index < _ by omega) c7
  -- The back edge asks for no new label: the header was started before.
  have started8 : s8.draft.isStarted header = true := by
    have started6 := ht.isStarted_mono h6 b5.wf started5
    have started7 : s7.draft.isStarted header = true := by
      rw [gives_terminate.mp h7, Draft.isStarted_terminate]
      exact started6
    rw [gives_startThen] at h8
    split at h8
    · obtain ⟨_, u, hbody, hback⟩ := gives_bind.mp h8
      have startedBody := hb.isStarted_mono (l := header) hbody (b7.wf.start bodyLabel)
        (by rw [Draft.isStarted_start, started7]; rfl)
      rw [gives_terminate.mp hback, Draft.isStarted_terminate]
      exact startedBody
    · rw [h8, Draft.isStarted_start, started7]; rfl
  have b8 := b8.settle started8
  rcases b8.of_startThen h9 z3 (by simp [c8]) with ⟨s', b9, _, h⟩ | ⟨b9, _⟩
  · exact ((unitIfValue mode).keeps h b9).mono (by omega) subset_rfl subset_rfl
  · exact b9.mono (by omega) subset_rfl subset_rfl

/-! ## Ways on that are left open -/

theorem handlerEnd {join noMatch : BlockId} (h : (Site.handlerEnd join noMatch).Gives s v t)
    (hs : Built d0 n (insert join (insert noMatch owed)) parked s.draft)
    (hc : s.draft.current = none) (zj : d0.labels.size ≤ join.index)
    (zn : d0.labels.size ≤ noMatch.index) : Built d0 n owed parked t.draft := by
  simp only [Site.handlerEnd, gives_bind] at h
  obtain ⟨joined, s1, h1, _, s2, h2, h3⟩ := h
  obtain ⟨b1, c1⟩ := hs.of_start h1 zj (by simp [hc])
  have hpark : ∀ c, s1.draft.current = some c → (⟨c⟩ : BlockId) ∈ insert join parked := by
    intro c h
    rw [c1] at h
    split at h <;> cases h
    exact .inl rfl
  -- Rethrowing ends its own block, so nothing is current when the join is resumed.
  have hthrow : Built d0 n owed (if joined then insert join parked else parked) s2.draft ∧
      s2.draft.current = none := by
    cases joined with
    | true =>
      have b1 := b1.mono le_rfl subset_rfl (Set.subset_insert join parked)
      rcases b1.of_startThen h2 zn hpark with ⟨s', b2, _, h⟩ | h
      · exact ⟨(leave rfl rfl).keeps h b2, by
          rw [gives_terminate.mp h]; exact Draft.current_terminate _ _⟩
      · exact h
    | false =>
      rcases b1.of_startThen h2 zn (by simp [c1]) with ⟨s', b2, _, h⟩ | h
      · exact ⟨(leave rfl rfl).keeps h b2, by
          rw [gives_terminate.mp h]; exact Draft.current_terminate _ _⟩
      · exact h
  obtain ⟨b2, c2⟩ := hthrow
  cases joined with
  | true =>
    rw [gives_resume.mp h3]
    exact b2.resume (by simp [c2])
  | false =>
    obtain ⟨_, rfl⟩ := gives_pure.mp h3
    exact b2

theorem resumeOrRethrow : Neat Site.resumeOrRethrow := by
  refine ⟨fun {d0 n owed parked _ _ _} h hs => ?_⟩
  simp only [Site.resumeOrRethrow, gives_bind] at h
  obtain ⟨resume, s1, h1, rethrow, s2, h2, _, s3, h3, _, s4, h4, _, s5, h5, _, s6, h6, _, s7, h7,
    _, s8, h8, h9⟩ := h
  obtain ⟨b1, n1, z1, _⟩ := hs.of_label h1
  obtain ⟨b2, n2, z2, _⟩ := b1.of_label h2
  have b3 := (emitAll (by simp [Inst.isTerminator])).keeps h3 b2
  obtain ⟨b4, c4⟩ := b3.of_fork h4 rfl rfl (show resume.index < _ by omega)
    (show rethrow.index < _ by omega)
  obtain ⟨b5, c5⟩ := b4.of_start h5 z1 (by simp [c4])
  have b6 := (emit rfl).keeps h6 b5
  -- The way on stays open while the exception is thrown on.
  have hpark : ∀ c, s6.draft.current = some c → (⟨c⟩ : BlockId) ∈ insert resume parked := by
    intro c h
    rw [gives_emit.mp h6, Draft.current_emit, c5] at h
    split at h <;> cases h
    exact .inl rfl
  obtain ⟨b7, _⟩ := (b6.mono le_rfl subset_rfl (Set.subset_insert resume parked)).of_start h7 z2
    hpark
  have b8 := (leave rfl rfl).keeps h8 b7
  have c8 : s8.draft.current = none := by
    rw [gives_terminate.mp h8]; exact Draft.current_terminate _ _
  rw [gives_resume.mp h9]
  exact (b8.resume (by simp [c8])).mono (by omega) subset_rfl subset_rfl

/-! ## Labels -/

/-- The labels that are still to be started are owed, and the draft did not have them at first. -/
structure Owing (d0 : Draft) (n : Nat) (owed parked : Set BlockId) (p : Point Unit)
    (s : LowerState) : Prop where
  built : Built d0 n ({l | l ∈ p.due} ∪ owed) parked s.draft
  closed : p.here = none → s.draft.current = none
  fresh : ∀ l ∈ p.due, d0.labels.size ≤ l.index ∧ l.index < s.draft.labels.size

/-- The step starts labels that are due. -/
structure Settles (p q : Point Unit) (m : Lower α) : Prop where
  keeps : ∀ {d0 n owed parked s a t}, m.Gives s a t → Owing d0 n owed parked p s →
    Owing d0 n owed parked q t

namespace Owing

variable {p q : Point Unit} {due due' : List BlockId}

theorem all (h : Owing d0 n owed parked p s) :
    Built d0 s.draft.labels.size ({l | l ∈ p.due} ∪ owed) parked s.draft :=
  { h.built with size := le_rfl }

theorem of_built (h : Owing d0 n owed parked p s) (hdue : ∀ l ∈ q.due, l ∈ p.due)
    (ht : Built d0 s.draft.labels.size ({l | l ∈ q.due} ∪ owed) parked t.draft)
    (hc : q.here = none → t.draft.current = none) : Owing d0 n owed parked q t where
  built := ht.mono h.built.size subset_rfl subset_rfl
  closed := hc
  fresh l hl := (h.fresh l (hdue l hl)).imp_right fun hlt => hlt.trans_le ht.size

theorem mem {here : Option Unit} (h : Owing d0 n owed parked ⟨here, due⟩ s)
    (hdue : ∀ l, l ∈ due ↔ l ∈ due') : Owing d0 n owed parked ⟨here, due'⟩ s where
  built := h.built.mono le_rfl (Set.union_subset_union_left _ fun l => (hdue l).mp) subset_rfl
  closed := h.closed
  fresh l hl := h.fresh l ((hdue l).mpr hl)

theorem label (hl : Lower.label.Gives s l t) (h : Owing d0 n owed parked p s) :
    Owing d0 n owed parked ⟨p.here, l :: p.due⟩ t := by
  obtain ⟨hb, hn, hz, hc⟩ := h.all.of_label hl
  refine ⟨hb.mono (h.built.size.trans (by omega)) ?_ subset_rfl, fun hp => hc.trans (h.closed hp), ?_⟩
  · exact Set.union_subset_union_left _ fun _ hx => .tail _ hx
  · refine List.forall_mem_cons.mpr ⟨⟨hz, hb.size⟩, fun x hx => ?_⟩
    have := h.fresh x hx
    have := hb.size
    omega

theorem start {here : Option Unit} (h : Owing d0 n owed parked ⟨none, l :: due⟩ s)
    (hc : here = none → (s.draft.start l).2.current = none) :
    Owing d0 n owed parked ⟨here, due⟩ ⟨(s.draft.start l).2, s.strings⟩ := by
  refine h.of_built (fun x hx => .tail _ hx) (.start (h.all.mono le_rfl ?_ subset_rfl) ?_ ?_) hc
  · rintro x (hx | hx)
    · exact (List.mem_cons.mp hx).imp_right .inl
    · exact .inr (.inr hx)
  · exact (h.fresh l List.mem_cons_self).1
  · simp [h.closed rfl]

end Owing

theorem tracked : Tracked .free (fun _ _ _ => True) (fun _ _ _ m _ => Neat m)
    fun _ p q _ m _ => Settles p q m where
  toStraight := straight
  part hm := ⟨fun h hs => hs.of_built (fun _ hl => hl) (hm.keeps h hs.all) nofun⟩
  whole hm := ⟨fun h hs => by simpa using (hm.keeps h ⟨by simpa using hs, nofun, by simp⟩).built⟩
  andThen hm hk := by
    refine ⟨fun h hs => ?_⟩
    obtain ⟨a, u, h1, h2⟩ := gives_bind.mp h
    exact (hk a _ u h1).keeps h2 (hm.keeps h1 hs)
  reorder hperm hm := ⟨fun h hs => hm.keeps h (hs.mem fun _ => hperm.mem_iff)⟩
  ask _ hstate := ⟨fun h hs => hstate h ▸ hs⟩
  relax hm := ⟨fun h hs => { hm.keeps h hs with closed := nofun }⟩
  terminate hleap hdue := by
    refine ⟨fun h hs => ?_⟩
    obtain ⟨hb, hc⟩ := hs.all.of_terminate h hleap.isTerminator fun l hl => (hs.fresh l (hdue l hl)).2
    exact hs.of_built (fun _ hl => hl) (hb.mono le_rfl
      (Set.union_subset (fun l hl => .inl (hdue l hl)) subset_rfl) subset_rfl) fun _ => hc
  label _ hk := by
    refine ⟨fun h hs => ?_⟩
    obtain ⟨l, u, h1, h2⟩ := gives_bind.mp h
    exact (hk l l).keeps h2 (hs.label h1)
  labels _ _ hk := by
    refine ⟨fun h hs => ?_⟩
    obtain ⟨a, u, h1, h⟩ := gives_bind.mp h
    obtain ⟨b, u', h2, h3⟩ := gives_bind.mp h
    exact (hk a a b b).keeps h3 (((hs.label h1).label h2).mem (by simp [or_left_comm]))
  start _ := by
    refine ⟨fun h hs => ?_⟩
    rw [(gives_start.mp h).2]
    exact hs.start nofun
  startThen _ hm := by
    refine ⟨fun h hs => ?_⟩
    rw [gives_startThen] at h
    split at h <;> rename_i hst
    · exact hm.keeps h (hs.start nofun)
    · rw [h]
      exact hs.start fun _ => by rw [Draft.start_of_not hst]
  ifReachable hm := by
    refine ⟨fun h hs => ?_⟩
    obtain ⟨reachable, u, h1, h2⟩ := gives_bind.mp h
    obtain ⟨_, rfl⟩ := gives_isReachable.mp h1
    split at h2
    · exact hm.keeps h2 hs
    · obtain ⟨_, rfl⟩ := gives_pure.mp h2
      exact { hs with closed := nofun }
  isReferenced _ := ⟨fun h hs => (gives_isReferenced.mp h).2 ▸ hs⟩
  resumeOrRethrow := resumeOrRethrow
  handlerEnd _ _ := by
    refine ⟨fun h hs => hs.of_built (fun l hl => .tail _ (.tail _ hl)) (handlerEnd h
      (hs.all.mono le_rfl ?_ subset_rfl) (hs.closed rfl) (hs.fresh _ (by simp)).1
      (hs.fresh _ (by simp)).1) nofun⟩
    rintro x (hx | hx)
    · exact (List.mem_cons.mp hx).imp_right fun hx => (List.mem_cons.mp hx).imp_right .inl
    · exact .inr (.inr (.inr hx))

theorem composes : Composes .free (fun _ _ _ => True) (fun _ _ _ m _ => Neat m)
    (fun _ p q _ m _ => Settles p q m) where
  toTracked := tracked
  emitString _ _ := tracked.emitString (x := ()) (fun _ => trivial) fun hm =>
    ⟨fun h hs => by rwa [hm h]⟩
  loop mode hm hn := loop hm hn mode

end Neat

end StackBackend
