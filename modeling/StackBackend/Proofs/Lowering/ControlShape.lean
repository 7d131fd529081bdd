import StackBackend.Proofs.Lowering.Places

/-! The code of each control construct: which terminators it lays where, and at which
places its parts begin and end. -/

namespace StackBackend

open Lower
open LowerState (Forward)

variable {s t u : LowerState} {l b : BlockId} {P Q : Place} {m : Lower Unit} {v : Unit}
variable {body onTrue : Lower Unit} {mode : Mode}

def Arm (m : Lower Unit) (l b : BlockId) (t : LowerState) : Prop :=
  ∃ s0 t0, m.Gives s0 () t0 ∧ s0.draft.WF ∧ s0.draft.place = some (l, 0) ∧ t0.Extends t ∧
    ∀ P, t0.draft.place = some P → t.Laid P (.branch b) ∧ t.draft.isReferenced b = true

theorem Arm.mono (h : Arm m l b t) (htu : t.Extends u) : Arm m l b u := by
  obtain ⟨s0, t0, hm, hs, hl, ht, hb⟩ := h
  exact ⟨s0, t0, hm, hs, hl, ht.trans htu, fun P hP =>
    ⟨htu.laid (hb P hP).1, htu.referenced b (hb P hP).2⟩⟩

namespace LowerState.Forward

theorem of_startThen (h : (Lower.startThen l m).Gives s v t) (hs : s.draft.WF)
    (hl : s.draft.Fresh l) (href : s.draft.isReferenced l = true) :
    ∃ s0, Forward [l] s s0 ∧ s0.draft.place = some (l, 0) ∧ m.Gives s0 v t := by
  obtain ⟨started, s0, h1, h2⟩ := gives_bind.mp h
  obtain ⟨f1, hv, _, _, hplace⟩ := of_start h1 hs hl
  have href := f1.extended.referenced l href
  rw [href] at hv hplace
  rw [hv] at h2
  exact ⟨s0, f1, hplace, h2⟩

theorem of_startThen_not (h : (Lower.startThen l m).Gives s v t) (hs : s.draft.WF)
    (hl : s.draft.Fresh l) (href : s.draft.isReferenced l = false) :
    Forward [l] s t ∧ t.draft.current = none := by
  obtain ⟨started, s0, h1, h2⟩ := gives_bind.mp h
  have hv : started = false := by
    rw [(gives_start.mp h1).1, Draft.start_fst, href]; rfl
  obtain ⟨f1, hv', _, _, hplace⟩ := of_start h1 hs hl
  rw [← hv', hv] at hplace
  rw [hv] at h2
  obtain ⟨_, rfl⟩ := gives_pure.mp h2
  refine ⟨f1, ?_⟩
  simpa [Draft.place] using hplace

theorem of_startThen_tidy (h : (Lower.startThen l m).Gives s v t) (hm : Tidy m)
    (hs : s.draft.WF) (hl : s.draft.Fresh l) : Forward [l] s t := by
  cases href : s.draft.isReferenced l with
  | false => exact (of_startThen_not h hs hl href).1
  | true =>
    obtain ⟨s0, f0, _, h1⟩ := of_startThen h hs hl href
    exact f0.trans (hm.forward h1 f0.wf)

theorem of_arm (h : (Lower.startThen l (m >>= fun _ => Lower.branch b)).Gives s v t)
    (hm : Tidy m) (hs : s.draft.WF) (hl : s.draft.Fresh l) (hb : b.index < s.draft.labels.size) :
    Forward [l] s t ∧ t.draft.current = none ∧ (s.draft.isReferenced l = true → Arm m l b t) := by
  cases href : s.draft.isReferenced l with
  | false =>
    obtain ⟨f, hc⟩ := of_startThen_not h hs hl href
    exact ⟨f, hc, fun h => nomatch h⟩
  | true =>
    obtain ⟨s0, f0, hplace, h1⟩ := of_startThen h hs hl href
    obtain ⟨_, t0, h2, h3⟩ := gives_bind.mp h1
    have f1 := hm.forward h2 f0.wf
    have hb0 : b.index < t0.draft.labels.size :=
      hb.trans_le (f0.extended.trans f1.extended).size
    obtain ⟨f2, hc, hlaid⟩ := of_terminate h3 f1.wf (by simpa [Inst.successors] using hb0)
    refine ⟨f0.trans (f1.trans f2), hc, fun _ => ⟨s0, t0, h2, f0.wf, hplace, f2.extended, ?_⟩⟩
    intro P hP
    exact ⟨(hlaid P hP).1, (hlaid P hP).2 b (List.mem_singleton_self b)⟩

end LowerState.Forward

/-! ## Branches -/

/-- Both arms meet at a label, which is where lowering goes on if one of them ends. -/
theorem twoArms_shape {onFalse : Lower Unit} (ht : Tidy onTrue) (hf : Tidy onFalse)
    (h : (Site.twoArms onTrue onFalse).Gives s () t) (hs : s.draft.WF)
    (hP : s.draft.place = some P) :
    ∃ trueLabel falseLabel join, t.Laid P (.branchIf trueLabel falseLabel) ∧
      Arm onTrue trueLabel join t ∧ Arm onFalse falseLabel join t ∧
      (t.draft.isReferenced join = true → t.draft.place = some (join, 0)) := by
  simp only [Site.twoArms, gives_bind] at h
  obtain ⟨trueLabel, s1, h1, falseLabel, s2, h2, join, s3, h3, _, s4, h4, _, s5, h5, _, s6, h6,
    _, s7, h7, h8⟩ := h
  obtain ⟨_, rfl⟩ := gives_pure.mp h8
  obtain ⟨f1, fresh1, place1, _⟩ := Forward.of_label h1 hs
  obtain ⟨f2, fresh2, place2, ne2⟩ := Forward.of_label h2 f1.wf
  obtain ⟨f3, fresh3, place3, ne3⟩ := Forward.of_label h3 f2.wf
  have true3 := f3.kept (f2.kept fresh1)
  have false3 := f3.kept fresh2
  obtain ⟨f4, _, laid4⟩ := Forward.of_terminate h4 f3.wf
    (by simpa [Inst.successors] using ⟨true3.1, false3.1⟩)
  obtain ⟨laid4, ref4⟩ := laid4 P (by rw [place3, place2, place1, hP])
  have join4 := f4.kept fresh3
  obtain ⟨f5, _, arm5⟩ := Forward.of_arm h5 ht f4.wf (f4.kept true3) join4.1
  have false5 := f5.kept_of_ne (f4.kept false3) (ne2 _ fresh1.1).symm
  have join5 := f5.kept_of_ne join4 (ne3 _ (f2.kept fresh1).1).symm
  obtain ⟨f6, _, arm6⟩ := Forward.of_arm h6 hf f5.wf false5 join5.1
  obtain ⟨f7, _, _, _, place7⟩ := Forward.of_start h7 f6.wf
    (f6.kept_of_ne join5 (ne3 _ fresh2.1).symm)
  have e6 := f6.extended.trans f7.extended
  refine ⟨trueLabel, falseLabel, join, (f5.extended.trans e6).laid laid4, ?_, ?_, ?_⟩
  · exact (arm5 (ref4 _ (by simp [Inst.successors]))).mono e6
  · exact (arm6 (f5.extended.referenced _ (ref4 _ (by simp [Inst.successors])))).mono f7.extended
  · intro href
    rw [place7, if_pos href]

theorem oneArm_shape (ht : Tidy onTrue)
    (h : (Site.oneArm onTrue mode).Gives s () t) (hs : s.draft.WF) (hP : s.draft.place = some P) :
    ∃ trueLabel join u, t.Laid P (.branchIf trueLabel join) ∧ Arm onTrue trueLabel join t ∧
      u.draft.WF ∧ u.draft.place = some (join, 0) ∧ (Lower.unitIfValue mode).Gives u () t := by
  simp only [Site.oneArm, gives_bind] at h
  obtain ⟨trueLabel, s1, h1, join, s2, h2, _, s3, h3, _, s4, h4, h5⟩ := h
  obtain ⟨f1, fresh1, place1, _⟩ := Forward.of_label h1 hs
  obtain ⟨f2, fresh2, place2, ne2⟩ := Forward.of_label h2 f1.wf
  have true2 := f2.kept fresh1
  obtain ⟨f3, _, laid3⟩ := Forward.of_terminate h3 f2.wf
    (by simpa [Inst.successors] using ⟨true2.1, fresh2.1⟩)
  obtain ⟨laid3, ref3⟩ := laid3 P (by rw [place2, place1, hP])
  have join3 := f3.kept fresh2
  obtain ⟨f4, _, arm4⟩ := Forward.of_arm h4 ht f3.wf (f3.kept true2) join3.1
  have join4 := f4.kept_of_ne join3 (ne2 _ fresh1.1).symm
  have href := f4.extended.referenced join (ref3 _ (by simp [Inst.successors]))
  obtain ⟨u, f5, place5, h6⟩ := Forward.of_startThen h5 f4.wf join4 href
  have f6 := (Tidy.unitIfValue mode).forward h6 f5.wf
  have e5 := f5.extended.trans f6.extended
  exact ⟨trueLabel, join, u, (f4.extended.trans e5).laid laid3,
    (arm4 (ref3 _ (by simp [Inst.successors]))).mono e5, f5.wf, place5, h6⟩

theorem shortCircuit_shape {right : Lower Unit} {needed : Bool} (hr : Tidy right)
    (h : (Site.shortCircuit right needed).Gives s () t) (hs : s.draft.WF)
    (hP : s.draft.place = some P) :
    ∃ onRight join, t.Laid P .dup ∧
      t.Laid (P.1, P.2 + 1) (if needed then .branchIf onRight join else .branchIf join onRight) ∧
      Arm (do Lower.emit .drop; right) onRight join t ∧ t.draft.place = some (join, 0) := by
  simp only [Site.shortCircuit, gives_bind] at h
  obtain ⟨_, s0, h0, onRight, s1, h1, join, s2, h2, _, s3, h3, _, s4, h4, _, s5, h5, h6⟩ := h
  obtain ⟨_, rfl⟩ := gives_pure.mp h6
  obtain ⟨f0, laid0, place0⟩ := Forward.of_emit h0 hs rfl hP
  obtain ⟨f1, fresh1, place1, _⟩ := Forward.of_label h1 f0.wf
  obtain ⟨f2, fresh2, place2, ne2⟩ := Forward.of_label h2 f1.wf
  have right2 := f2.kept fresh1
  have htargets : ∀ l ∈ (if needed then Inst.branchIf onRight join
      else .branchIf join onRight).successors, l.index < s2.draft.labels.size := by
    cases needed
    · simpa [Inst.successors] using ⟨fresh2.1, right2.1⟩
    · simpa [Inst.successors] using ⟨right2.1, fresh2.1⟩
  obtain ⟨f3, _, laid3⟩ := Forward.of_terminate h3 f2.wf htargets
  obtain ⟨laid3, ref3⟩ := laid3 _ (by rw [place2, place1, place0])
  have hright := ref3 onRight (by cases needed <;> simp [Inst.successors])
  have hjoin := ref3 join (by cases needed <;> simp [Inst.successors])
  have join3 := f3.kept fresh2
  obtain ⟨f4, _, arm4⟩ := Forward.of_arm (m := do Lower.emit .drop; right)
    (by simpa only [bind_assoc] using h4) (.bind (.emit rfl) fun _ => hr) f3.wf (f3.kept right2)
    join3.1
  obtain ⟨f5, _, _, _, place5⟩ := Forward.of_start h5 f4.wf
    (f4.kept_of_ne join3 (ne2 _ fresh1.1).symm)
  have e4 := f4.extended.trans f5.extended
  have e1 := f1.extended.trans (f2.extended.trans (f3.extended.trans e4))
  refine ⟨onRight, join, e1.laid laid0, e4.laid laid3, (arm4 hright).mono f5.extended, ?_⟩
  rw [place5, if_pos (e4.referenced join hjoin)]

theorem loop_shape {test : Lower Unit} (ht : Tidy test) (hb : Tidy body)
    (h : (Site.loop test body mode).Gives s () t) (hs : s.draft.WF) (hP : s.draft.place = some P) :
    ∃ header s0 t0, t.Laid P (.branch header) ∧ test.Gives s0 () t0 ∧ s0.draft.WF ∧
      s0.draft.place = some (header, 0) ∧ t0.Extends t ∧
      ∀ Q, t0.draft.place = some Q → ∃ bodyLabel exit u, t.Laid Q (.branchIf bodyLabel exit) ∧
        Arm body bodyLabel header t ∧ u.draft.WF ∧ u.draft.place = some (exit, 0) ∧
        (Lower.unitIfValue mode).Gives u () t := by
  simp only [Site.loop, gives_bind] at h
  obtain ⟨header, s1, h1, bodyLabel, s2, h2, exit, s3, h3, _, s4, h4, h5⟩ := h
  obtain ⟨f1, fresh1, place1, _⟩ := Forward.of_label h1 hs
  obtain ⟨f2, fresh2, place2, ne2⟩ := Forward.of_label h2 f1.wf
  obtain ⟨f3, fresh3, place3, ne3⟩ := Forward.of_label h3 f2.wf
  have header3 := f3.kept (f2.kept fresh1)
  obtain ⟨f4, _, laid4⟩ := Forward.of_terminate h4 f3.wf
    (by simpa [Inst.successors] using header3.1)
  obtain ⟨laid4, ref4⟩ := laid4 P (by rw [place3, place2, place1, hP])
  have header4 := f4.kept header3
  obtain ⟨s5, f5, place5, h6⟩ := Forward.of_startThen h5 f4.wf header4
    (ref4 _ (by simp [Inst.successors]))
  simp only [gives_bind] at h6
  obtain ⟨_, s6, h6, _, s7, h7, _, s8, h8, h9⟩ := h6
  have body5 := f5.kept_of_ne (f4.kept (f3.kept fresh2)) (ne2 _ fresh1.1).symm
  have exit5 := f5.kept_of_ne (f4.kept fresh3) (ne3 _ (f2.kept fresh1).1).symm
  have f6 := ht.forward h6 f5.wf
  have body6 := f6.kept body5
  have exit6 := f6.kept exit5
  obtain ⟨f7, _, laid7⟩ := Forward.of_terminate h7 f6.wf
    (by simpa [Inst.successors] using ⟨body6.1, exit6.1⟩)
  have hheader : header.index < s7.draft.labels.size := by
    have hsize := (f5.extended.trans (f6.extended.trans f7.extended)).size
    exact header4.1.trans_le hsize
  obtain ⟨f8, _, arm8⟩ := Forward.of_arm h8 hb f7.wf (f7.kept body6) hheader
  have exit8 := f8.kept_of_ne (f7.kept exit6) (ne3 _ fresh2.1).symm
  have f9 := Forward.of_startThen_tidy h9 (.unitIfValue mode) f8.wf exit8
  have e7 := f7.extended.trans (f8.extended.trans f9.extended)
  refine ⟨header, s5, s6, ?_, h6, f5.wf, place5, e7, fun Q hQ => ?_⟩
  · exact (f5.extended.trans (f6.extended.trans e7)).laid laid4
  · obtain ⟨laidQ, refQ⟩ := laid7 Q hQ
    have hexit := f8.extended.referenced exit (refQ _ (by simp [Inst.successors]))
    obtain ⟨u, f10, place10, h10⟩ := Forward.of_startThen h9 f8.wf exit8 hexit
    exact ⟨bodyLabel, exit, u, (f8.extended.trans f9.extended).laid laidQ,
      (arm8 (refQ _ (by simp [Inst.successors]))).mono f9.extended, f10.wf, place10, h10⟩

/-! ## Protected regions -/

/-- Exceptions wait at `next`, and where they do not is `done`. -/
structure Draft.Awaits (d : Draft) (done next : BlockId) : Prop where
  freshDone : d.Fresh done
  freshNext : d.Fresh next
  referenced : d.isReferenced next = true
  ne : done ≠ next

theorem close_shape (h : Region.close.Gives s () t) (hs : s.draft.WF)
    (hP : s.draft.place = some P) :
    ∃ next, t.Laid P (.popTry next) ∧ t.draft.place = some (next, 0) := by
  simp only [Region.close, gives_bind] at h
  obtain ⟨next, s1, h1, _, s2, h2, _, s3, h3, h4⟩ := h
  obtain ⟨_, rfl⟩ := gives_pure.mp h4
  obtain ⟨f1, fresh1, place1, _⟩ := Forward.of_label h1 hs
  obtain ⟨f2, _, laid2⟩ := Forward.of_terminate h2 f1.wf
    (by simpa [Inst.successors] using fresh1.1)
  obtain ⟨laid2, ref2⟩ := laid2 P (by rw [place1, hP])
  obtain ⟨f3, _, _, _, place3⟩ := Forward.of_start h3 f2.wf (f2.kept fresh1)
  refine ⟨next, f3.extended.laid laid2, ?_⟩
  rw [place3, if_pos (f3.extended.referenced next (ref2 _ (by simp [Inst.successors])))]

/-- The body stands between the instructions that open and close the region; what
follows begins with the exit and the handler not started yet. -/
theorem protect_shape {rest : (exit handler : BlockId) → Lower Unit}
    (hb : Tidy body) (h : (Site.protect body rest).Gives s () t) (hs : s.draft.WF)
    (hP : s.draft.place = some P) :
    ∃ bodyLabel handler exit s0 t0 u, body.Gives s0 () t0 ∧ s0.draft.WF ∧
      s0.draft.place = some (bodyLabel, 0) ∧ t0.Extends u ∧
      u.Laid P (.pushTry bodyLabel handler) ∧
      (∀ Q, t0.draft.place = some Q →
        u.Laid Q (.popTry exit) ∧ u.draft.isReferenced exit = true) ∧
      u.draft.WF ∧ u.draft.Awaits exit handler ∧ (rest exit handler).Gives u () t := by
  simp only [Site.protect, gives_bind, gives_isReachable] at h
  obtain ⟨_, s, ⟨rfl, rfl⟩, h⟩ := h
  have hreach : s.draft.isReachable = true := by
    rw [Draft.isReachable, (Draft.place_eq_some.mp hP).1]; rfl
  rw [if_pos hreach] at h
  simp only [gives_bind] at h
  obtain ⟨bodyLabel, s1, h1, handler, s2, h2, _, s3, h3, exit, s4, h4, _, s5, h5, _, s6, h6,
    _, s7, h7, h8⟩ := h
  obtain ⟨f1, fresh1, place1, _⟩ := Forward.of_label h1 hs
  obtain ⟨f2, fresh2, place2, ne2⟩ := Forward.of_label h2 f1.wf
  have body2 := f2.kept fresh1
  obtain ⟨f3, _, laid3⟩ := Forward.of_terminate h3 f2.wf
    (by simpa [Inst.successors] using ⟨body2.1, fresh2.1⟩)
  obtain ⟨laid3, ref3⟩ := laid3 P (by rw [place2, place1, hP])
  have body3 := f3.kept body2
  have handler3 := f3.kept fresh2
  obtain ⟨f4, fresh4, _, ne4⟩ := Forward.of_label h4 f3.wf
  obtain ⟨f5, _, _, _, place5⟩ := Forward.of_start h5 f4.wf (f4.kept body3)
  have href := (f4.extended.trans f5.extended).referenced bodyLabel
    (ref3 _ (by simp [Inst.successors]))
  rw [if_pos href] at place5
  have exit5 := f5.kept_of_ne fresh4 (ne4 _ body3.1).symm
  have handler5 := f5.kept_of_ne (f4.kept handler3) (ne2 _ fresh1.1).symm
  have f6 := hb.forward h6 f5.wf
  have exit6 := f6.kept exit5
  obtain ⟨f7, _, laid7⟩ := Forward.of_terminate h7 f6.wf
    (by simpa [Inst.successors] using exit6.1)
  have e3 := f4.extended.trans (f5.extended.trans (f6.extended.trans f7.extended))
  refine ⟨bodyLabel, handler, exit, s5, s6, s7, h6, f5.wf, place5, f7.extended, e3.laid laid3,
    fun Q hQ => ?_, f7.wf, ⟨f7.kept exit6, f7.kept (f6.kept handler5),
      e3.referenced handler (ref3 _ (by simp [Inst.successors])), (ne4 _ handler3.1).symm⟩, h8⟩
  obtain ⟨laidQ, refQ⟩ := laid7 Q hQ
  exact ⟨laidQ, refQ exit (by simp [Inst.successors])⟩

/-- The guard is tested where the exception stands. An exception the clause does not
take goes on at a label that comes with the code. -/
theorem clauseCode_shape {site : Site} {typeofSlot subtypeSlot : Nat} {binding : Option DefnId}
    {guard : Option ClassId} {done next other : BlockId}
    (hb : Tidy (site.bindException binding >>= fun _ => body))
    (h : (site.clauseCode typeofSlot subtypeSlot binding guard body done next).Gives s other t)
    (hs : s.draft.WF) (hw : s.draft.Awaits done next) :
    t.draft.WF ∧ s.Extends t ∧ t.draft.Awaits done other ∧
      ∃ matched s0 t0 Q, (Site.testGuard typeofSlot subtypeSlot guard).Gives s0 () t0 ∧
        s0.draft.WF ∧ s0.draft.place = some (next, 0) ∧ t0.draft.place = some Q ∧
        t0.Extends t ∧ t.Laid Q (.branchIf matched other) ∧
        Arm (site.bindException binding >>= fun _ => body) matched done t := by
  simp only [Site.clauseCode, gives_bind] at h
  obtain ⟨_, s1, h1, matched, s2, h2, other', s3, h3, _, s4, h4, _, s5, h5, _, s6, h6, _, s7, h7,
    _, s8, h8, _, s9, h9, h10⟩ := h
  obtain ⟨rfl, rfl⟩ := gives_pure.mp h10
  obtain ⟨f1, _, _, _, place1⟩ := Forward.of_start h1 hs hw.freshNext
  rw [if_pos (f1.extended.referenced next hw.referenced)] at place1
  obtain ⟨f2, fresh2, place2, ne2⟩ := Forward.of_label h2 f1.wf
  obtain ⟨f3, fresh3, place3, ne3⟩ := Forward.of_label h3 f2.wf
  obtain ⟨f4, place4⟩ := Forward.of_emitAll (by simp [Inst.isTerminator]) h4 f3.wf
    (by rw [place3, place2, place1])
  have matched4 := f4.kept (f3.kept fresh2)
  have other4 := f4.kept fresh3
  obtain ⟨f5, _, laid5⟩ := Forward.of_terminate h5 f4.wf
    (by simpa [Inst.successors] using ⟨matched4.1, other4.1⟩)
  obtain ⟨laid5, ref5⟩ := laid5 _ place4
  have hmatched := ref5 matched (by simp [Inst.successors])
  -- What follows is an arm, and it is not left out.
  have harm : (Lower.startThen matched ((site.bindException binding >>= fun _ => body) >>=
      fun _ => Lower.branch done)).Gives s5 () t := by
    obtain ⟨f6, hv, _⟩ := Forward.of_start h6 f5.wf (f5.kept matched4)
    rw [f6.extended.referenced matched hmatched] at hv
    refine gives_bind.mpr ⟨_, s6, h6, ?_⟩
    rw [hv]
    exact gives_bind.mpr ⟨(), s8, gives_bind.mpr ⟨(), s7, h7, h8⟩, h9⟩
  have e1 := f1.extended.trans (f2.extended.trans (f3.extended.trans
    (f4.extended.trans f5.extended)))
  obtain ⟨f6, _, arm6⟩ := Forward.of_arm harm hb f5.wf (f5.kept matched4)
    (hw.freshDone.1.trans_le e1.size)
  have hawaits : t.draft.Awaits done other := by
    have done1 := f1.kept_of_ne hw.freshDone hw.ne
    have done2 := f2.kept done1
    refine ⟨f6.kept_of_ne (f5.kept (f4.kept (f3.kept done2))) (ne2 _ done1.1),
      f6.kept_of_ne (f5.kept other4) (ne3 _ fresh2.1).symm,
      f6.extended.referenced other (ref5 _ (by simp [Inst.successors])), ne3 _ done2.1⟩
  exact ⟨f6.wf, e1.trans f6.extended, hawaits, matched, s3, s4, _, h4, f3.wf, by rw [place3, place2, place1], place4,
    f5.extended.trans f6.extended, f6.extended.laid laid5, arm6 hmatched⟩

theorem place_resume_of_throw {r : BlockId} {started : Bool} {code : List Inst}
    (h1 : (Lower.start l).Gives s started t) (h2 : (Lower.terminate .throw).Gives t v u)
    (hs : s.draft.WF) (hne : r ≠ l) (hr : s.draft.isStarted r = true)
    (hcode : s.draft.code r = code) (hopen : ∀ i ∈ code, i.isTerminator = false) :
    (u.draft.resume r).place = some (r, code.length) := by
  obtain ⟨rfl, rfl⟩ := gives_start.mp h1
  rw [gives_terminate.mp h2]
  have hcurrent : (s.draft.start l).2.current ≠ some r.index := by
    rw [Draft.current_start]
    split
    · intro h
      exact hne (Ref.ext_index (Option.some.inj h).symm)
    · simp
  have hcode' : ((s.draft.start l).2.terminate .throw).code r = code := by
    rw [Draft.code_terminate (hs.start l).currentValid, if_neg hcurrent, Draft.code_start, hcode]
  have hended : ((s.draft.start l).2.terminate .throw).isEnded r = false := by
    rw [Draft.isEnded, hcode']
    cases hlast : code.getLast? with
    | none => rfl
    | some i => exact hopen i (List.mem_of_getLast? hlast)
  rw [Draft.place_eq_some, Draft.current_resume, Draft.isStarted_terminate, Draft.isStarted_start,
    hr, hended, Draft.code_resume, hcode']
  exact ⟨rfl, rfl⟩

theorem handlerEnd_shape {join noMatch : BlockId} (h : (Site.handlerEnd join noMatch).Gives s () t)
    (hs : s.draft.WF) (hw : s.draft.Awaits join noMatch) :
    s.Extends t ∧ t.Laid (noMatch, 0) .throw ∧
      (s.draft.isReferenced join = true → t.draft.place = some (join, 0)) := by
  simp only [Site.handlerEnd, gives_bind] at h
  obtain ⟨joined, s1, h1, _, s2, h2, h3⟩ := h
  obtain ⟨f1, hv, started1, code1, _⟩ := Forward.of_start h1 hs hw.freshDone
  have noMatch1 := f1.kept_of_ne hw.freshNext hw.ne.symm
  obtain ⟨started, s', h', h''⟩ := gives_bind.mp h2
  obtain ⟨f', hv', _, _, place'⟩ := Forward.of_start h' f1.wf noMatch1
  rw [(f1.extended.trans f'.extended).referenced noMatch hw.referenced] at hv' place'
  rw [hv'] at h''
  obtain ⟨f2, _, laid2⟩ := Forward.of_terminate h'' f'.wf (by simp [Inst.successors])
  have e2 := f1.extended.trans (f'.extended.trans f2.extended)
  obtain ⟨laid2, _⟩ := laid2 _ place'
  cases joined with
  | false =>
    obtain ⟨_, rfl⟩ := gives_pure.mp h3
    refine ⟨e2, laid2, fun hjoin => ?_⟩
    rw [f1.extended.referenced join hjoin] at hv
    cases hv
  | true =>
    have e3 := LowerState.Extends.of_resume h3
    refine ⟨e2.trans e3, e3.laid laid2, fun _ => ?_⟩
    rw [gives_resume.mp h3]
    exact place_resume_of_throw h' h'' f1.wf hw.ne started1 code1 (by simp)

theorem resumeOrRethrow_shape (h : Site.resumeOrRethrow.Gives s () t) (hs : s.draft.WF)
    (hP : s.draft.place = some P) :
    ∃ s0 t0 Q resume rethrow, (Lower.emitAll [.dup, .null, .sameObject]).Gives s0 () t0 ∧
      s0.draft.WF ∧ s0.draft.place = some P ∧ t0.draft.place = some Q ∧ t0.Extends t ∧
      t.Laid Q (.branchIf resume rethrow) ∧ t.Laid (resume, 0) .drop ∧
      t.Laid (rethrow, 0) .throw ∧ t.draft.place = some (resume, 1) := by
  simp only [Site.resumeOrRethrow, gives_bind] at h
  obtain ⟨resume, s1, h1, rethrow, s2, h2, _, s3, h3, _, s4, h4, _, s5, h5, _, s6, h6, _, s7, h7,
    _, s8, h8, h9⟩ := h
  obtain ⟨f1, fresh1, place1, _⟩ := Forward.of_label h1 hs
  obtain ⟨f2, fresh2, place2, ne2⟩ := Forward.of_label h2 f1.wf
  have hP2 : s2.draft.place = some P := by rw [place2, place1, hP]
  obtain ⟨f3, place3⟩ := Forward.of_emitAll (by simp [Inst.isTerminator]) h3 f2.wf hP2
  have resume3 := f3.kept (f2.kept fresh1)
  have rethrow3 := f3.kept fresh2
  obtain ⟨f4, _, laid4⟩ := Forward.of_terminate h4 f3.wf
    (by simpa [Inst.successors] using ⟨resume3.1, rethrow3.1⟩)
  obtain ⟨laid4, ref4⟩ := laid4 _ place3
  obtain ⟨f5, hv5, started5, code5, place5⟩ := Forward.of_start h5 f4.wf (f4.kept resume3)
  rw [f5.extended.referenced resume (ref4 _ (by simp [Inst.successors]))] at hv5 place5
  rw [hv5] at started5
  obtain ⟨f6, laid6, _⟩ := Forward.of_emit h6 f5.wf rfl place5
  have hne := ne2 _ fresh1.1
  have rethrow6 := f6.kept (f5.kept_of_ne (f4.kept rethrow3) hne.symm)
  obtain ⟨f7, _, _, _, place7⟩ := Forward.of_start h7 f6.wf rethrow6
  have e4 := f5.extended.trans (f6.extended.trans f7.extended)
  rw [if_pos (e4.referenced rethrow (ref4 _ (by simp [Inst.successors])))] at place7
  obtain ⟨f8, _, laid8⟩ := Forward.of_terminate h8 f7.wf (by simp [Inst.successors])
  obtain ⟨laid8, _⟩ := laid8 _ place7
  have e8 := LowerState.Extends.of_resume h9
  have e6 := f7.extended.trans (f8.extended.trans e8)
  have e3 := f4.extended.trans (e4.trans (f8.extended.trans e8))
  refine ⟨s2, s3, _, resume, rethrow, h3, f2.wf, hP2, place3, e3, ?_, e6.laid laid6, e8.laid laid8,
    ?_⟩
  · exact (e4.trans (f8.extended.trans e8)).laid laid4
  · have code6 : s6.draft.code resume = [.drop] := by
      rw [gives_emit.mp h6, Draft.code_emit f5.wf.currentValid,
        if_pos (Draft.place_eq_some.mp place5).1, code5]
      rfl
    have started6 : s6.draft.isStarted resume = true := by
      rw [gives_emit.mp h6, Draft.isStarted_emit]
      exact started5
    rw [gives_resume.mp h9]
    exact place_resume_of_throw h7 h8 f6.wf hne started6 code6 (by simp [Inst.isTerminator])

theorem cleanupEnd_shape {cleanup : Lower Unit} {normal unwinding : BlockId} (hc : Tidy cleanup)
    (h : (Site.cleanupEnd cleanup normal unwinding).Gives s () t) (hs : s.draft.WF)
    (hw : s.draft.Awaits normal unwinding) :
    ∃ label s0 t0, s.Extends t ∧
      (s.draft.isReferenced normal = true → Arm (Lower.emit .null) normal label t) ∧
      Arm (Lower.emitAll [.uninitialized, .swap]) unwinding label t ∧
      cleanup.Gives s0 () t0 ∧ s0.draft.WF ∧ s0.draft.place = some (label, 0) ∧ t0.Extends t ∧
      t0.draft.WF ∧ ∀ Q, t0.draft.place = some Q →
        Site.resumeOrRethrow.Gives t0 () t ∨
        t.Laid Q .throw ∧ s.draft.isReferenced normal = false ∧ t.draft.place = none := by
  simp only [Site.cleanupEnd, gives_bind] at h
  obtain ⟨label, s1, h1, _, s2, h2, _, s3, h3, h4⟩ := h
  obtain ⟨f1, fresh1, _, ne1⟩ := Forward.of_label h1 hs
  obtain ⟨f2, _, arm2⟩ := Forward.of_arm h2 (.emit rfl) f1.wf (f1.kept hw.freshDone) fresh1.1
  have label2 := f2.kept_of_ne fresh1 (ne1 _ hw.freshDone.1).symm
  have unwinding2 := f2.kept_of_ne (f1.kept hw.freshNext) hw.ne.symm
  have href2 := (f1.extended.trans f2.extended).referenced unwinding hw.referenced
  obtain ⟨f3, _, arm3⟩ := Forward.of_arm h3 (.emitAll (by simp [Inst.isTerminator])) f2.wf
    unwinding2 label2.1
  have arm3 := arm3 href2
  have label3 := f3.kept_of_ne label2 (ne1 _ hw.freshNext.1).symm
  -- The exceptional exit leads here, so the cleanup is not left out.
  have hlabel : s3.draft.isReferenced label = true := by
    obtain ⟨_, _, hemit, hwf, hplace, _, hend⟩ := arm3
    exact (hend _ (Forward.of_emitAll (by simp [Inst.isTerminator]) hemit hwf hplace).2).2
  obtain ⟨s0, f4, place4, h4⟩ := Forward.of_startThen h4 f3.wf label3 hlabel
  simp only [gives_bind, gives_isReferenced] at h4
  obtain ⟨_, _, h5, _, t0, ⟨rfl, rfl⟩, h6⟩ := h4
  have f5 := hc.forward h5 f4.wf
  have e1 := f1.extended.trans (f2.extended.trans (f3.extended.trans f4.extended))
  obtain ⟨e6, hend⟩ : t0.Extends t ∧ ∀ Q, t0.draft.place = some Q →
      Site.resumeOrRethrow.Gives t0 () t ∨
      t.Laid Q .throw ∧ s.draft.isReferenced normal = false ∧ t.draft.place = none := by
    split at h6 <;> rename_i hnormal
    · exact ⟨(Tidy.resumeOrRethrow.forward h6 f5.wf).extended, fun _ _ => .inl h6⟩
    · obtain ⟨f6, hcurrent, laid6⟩ := Forward.of_terminate h6 f5.wf (by simp [Inst.successors])
      refine ⟨f6.extended, fun Q hQ => .inr ⟨(laid6 Q hQ).1, ?_, by rw [Draft.place, hcurrent]; rfl⟩⟩
      rw [← Bool.not_eq_true]
      exact fun h => hnormal ((e1.trans f5.extended).referenced normal h)
  have e4 := f4.extended.trans (f5.extended.trans e6)
  exact ⟨label, s0, t0, e1.trans (f5.extended.trans e6),
    fun h => (arm2 (f1.extended.referenced normal h)).mono (f3.extended.trans e4), arm3.mono e4,
    h5, f4.wf, place4, e6, f5.wf, hend⟩

end StackBackend
