import Mathlib
import StackBackend.Proofs.Lowering.Verified

/-! Blocks are numbered in the order in which control gets to them. A branch goes to a label
that has not been started, so the block that starts there comes later. Only the branch that
closes a loop goes back, to where the loop began. -/

namespace StackBackend

open Lower List

variable {α β : Type} {d d0 : Draft} {l : BlockId} {i : Inst} {s u v : LowerState}
  {due due' due'' : List BlockId} {back : BlockId → BlockId → List Inst → Prop}

namespace Draft

theorem Grows.trans {d' : Draft} (h : Grows d0 d) (h' : Grows d d') : Grows d0 d' where
  size := h.size.trans h'.size
  code l := (h.code l).trans (h'.code l)
  referenced l hl := h'.referenced l (h.referenced l hl)
  started l hl := (h'.started l (hl.trans_le h.size)).trans (h.started l hl)

/-- The first label was started before the second one. -/
def Before (d : Draft) (l t : BlockId) : Prop :=
  ∃ pre post, d.order.toList = pre ++ t.index :: post ∧ l.index ∈ pre

/-- Branches between blocks go forward, but for those that may go back. -/
structure Ordered (back : BlockId → BlockId → List Inst → Prop) (d : Draft) : Prop where
  wf : d.WF
  forward : ∀ l t, d.Targets l t → d.isStarted t = true → d.Before l t ∨ back l t (d.code l)

namespace Ordered

variable (h : d.Ordered back)
include h

theorem label : d.label.2.Ordered back :=
  ⟨h.wf.label, by simpa [Targets, Before] using h.forward⟩

theorem resume (l : BlockId) : (d.resume l).Ordered back :=
  ⟨h.wf.resume l, h.forward⟩

theorem adds {d' : Draft} (ha : Adds d i d') (hwf : d'.WF)
    (hback : ∀ n t, d.current = some n → t ∈ i.successors → d.isStarted t = true →
      back ⟨n⟩ t (d.code ⟨n⟩ ++ [i])) : d'.Ordered back := by
  refine ⟨hwf, fun l t ht hst => ?_⟩
  rw [ha.started] at hst
  rcases ha.targets ht with ht | ⟨hc, hi⟩
  · -- a block that branches has been ended
    have hc : d.current ≠ some l.index := fun hc => by
      obtain ⟨j, hj, hjt⟩ := ht
      rw [Inst.successors_of_not_terminator (h.wf.current_open _ hc j hj)] at hjt
      cases hjt
    rw [ha.code, if_neg hc, Before, ha.order]
    exact h.forward l t ht hst
  · rw [ha.code, if_pos hc]
    exact .inr (hback _ t hc hi hst)

theorem start (l : BlockId) : (d.start l).2.Ordered back := by
  refine ⟨h.wf.start l, fun x t ht hst => ?_⟩
  have ht : d.Targets x t := by simpa [Targets] using ht
  rw [code_start]
  by_cases hold : d.isStarted t = true
  · refine (h.forward x t ht hold).imp_left ?_
    rintro ⟨pre, post, horder, hx⟩
    rw [Before, order_start]
    split
    · exact ⟨pre, post ++ [l.index], by simp [horder], hx⟩
    · exact ⟨pre, post, horder, hx⟩
  · rw [isStarted_start] at hst
    have hnew : (t == l && (d.start l).1) = true := by simpa [hold] using hst
    rw [Bool.and_eq_true, beq_iff_eq] at hnew
    refine .inl ⟨d.order.toList, [], by rw [order_start, if_pos hnew.2, Array.toList_push, hnew.1], ?_⟩
    rw [h.wf.mem_order]
    by_contra hx
    obtain ⟨j, hj, _⟩ := ht
    rw [h.wf.code_of_not_started x (by simpa using hx)] at hj
    cases hj

end Ordered

/-- A draft on its way from another one, with labels that are still to be started. -/
structure Pending (back : BlockId → BlockId → List Inst → Prop) (d0 : Draft) (due : List BlockId)
    (d : Draft) : Prop where
  ordered : d.Ordered back
  grows : d0.Grows d
  nodup : due.Nodup
  fresh : ∀ l ∈ due, d0.labels.size ≤ l.index ∧ l.index < d.labels.size ∧ d.isStarted l = false

namespace Pending

theorem start_over (h : d.Ordered back) : Pending back d [] d :=
  ⟨h, .refl d, nodup_nil, forall_mem_nil _⟩

variable (h : Pending back d0 due d)
include h

theorem label : Pending back d0 (d.label.1 :: due) d.label.2 := by
  refine ⟨h.ordered.label, h.grows.label, nodup_cons.mpr ⟨fun hm => (h.fresh _ hm).2.1.false, h.nodup⟩,
    forall_mem_cons.mpr ⟨⟨h.grows.size, by simp [Draft.label], ?_⟩, fun l hl => ?_⟩⟩
  · rw [isStarted_label]
    exact Bool.eq_false_iff.mpr fun hst => (lt_size_of_isStarted hst).false
  · obtain ⟨hold, hlt, hnew⟩ := h.fresh l hl
    exact ⟨hold, by rw [size_label]; omega, by rw [isStarted_label]; exact hnew⟩

theorem adds {d' : Draft} (ha : Adds d i d') (hd' : d'.Ordered back)
    (href : ∀ l, d.isReferenced l = true → d'.isReferenced l = true) : Pending back d0 due d' := by
  refine ⟨hd', h.grows.adds ha href, h.nodup, fun l hl => ?_⟩
  obtain ⟨hold, hlt, hnew⟩ := h.fresh l hl
  exact ⟨hold, by rw [ha.size]; exact hlt, by rw [ha.started]; exact hnew⟩

theorem emit (hi : i.isTerminator = false) : Pending back d0 due (d.emit i) := by
  refine h.adds (h.ordered.wf.adds_emit i) (h.ordered.adds (h.ordered.wf.adds_emit i)
    (h.ordered.wf.emit hi) fun n t _ ht => ?_) (by simp)
  rw [Inst.successors_of_not_terminator hi] at ht
  cases ht

theorem terminate (hi : ∀ t ∈ i.successors, t.index < d.labels.size)
    (hback : ∀ n t, d.current = some n → t ∈ i.successors → d.isStarted t = true →
      back ⟨n⟩ t (d.code ⟨n⟩ ++ [i])) : Pending back d0 due (d.terminate i) :=
  h.adds (h.ordered.wf.adds_terminate i) (h.ordered.adds (h.ordered.wf.adds_terminate i)
    (h.ordered.wf.terminate hi) hback) fun l hl => (isReferenced_terminate d i l).mpr (.inl hl)

theorem leave (hi : ∀ t ∈ i.successors, t ∈ due) : Pending back d0 due (d.terminate i) :=
  h.terminate (fun t ht => (h.fresh t (hi t ht)).2.1) fun _ t _ ht hst => by
    rw [(h.fresh t (hi t ht)).2.2] at hst
    cases hst

omit h in
theorem start (h : Pending back d0 (l :: due) d) : Pending back d0 due (d.start l).2 := by
  obtain ⟨hl, hdue⟩ := nodup_cons.mp h.nodup
  refine ⟨h.ordered.start l, h.grows.start (h.fresh l (.head _)).1, hdue, fun x hx => ?_⟩
  obtain ⟨hold, hlt, hnew⟩ := h.fresh x (.tail _ hx)
  have hne : (x == l) = false := beq_false_of_ne fun heq => hl (heq ▸ hx)
  exact ⟨hold, by rw [size_start]; exact hlt, by rw [isStarted_start, hnew, hne]; rfl⟩

theorem resume (l : BlockId) : Pending back d0 due (d.resume l) :=
  ⟨h.ordered.resume l, h.grows.resume, h.nodup, h.fresh⟩

theorem perm (hperm : due.Perm due') : Pending back d0 due' d :=
  ⟨h.ordered, h.grows, hperm.nodup h.nodup, fun l hl => h.fresh l (hperm.mem_iff.mpr hl)⟩

/-- Labels that were handed out before are left alone. -/
theorem trans {d' : Draft} (h' : Pending back d [] d') : Pending back d0 due d' := by
  refine ⟨h'.ordered, h.grows.trans h'.grows, h.nodup, fun l hl => ?_⟩
  obtain ⟨hold, hlt, hnew⟩ := h.fresh l hl
  exact ⟨hold, hlt.trans_le h'.grows.size, by rw [h'.grows.started l hlt]; exact hnew⟩

end Pending

end Draft

open Draft (Pending Ordered)

/-- The step starts labels that are due, and branches to no label that has been started. -/
structure Clears (back : BlockId → BlockId → List Inst → Prop) (due due' : List BlockId)
    (m : Lower α) : Prop where
  keeps : ∀ {d0 s a t}, m.Gives s a t → Pending back d0 due s.draft → Pending back d0 due' t.draft

namespace Clears

theorem same {m : Lower α} (hm : ∀ {s a t}, m.Gives s a t → t = s) : Clears back due due m :=
  ⟨fun h hs => hm h ▸ hs⟩

theorem pure (a : α) : Clears back due due (pure a : Lower α) := same fun h => (gives_pure.mp h).2

theorem bind_of {m : Lower α} {f : α → Lower β} (hm : Clears back due due' m)
    (hf : ∀ a s t, m.Gives s a t → Clears back due' due'' (f a)) : Clears back due due'' (m >>= f) := by
  refine ⟨fun h hs => ?_⟩
  obtain ⟨a, u, h1, h2⟩ := gives_bind.mp h
  exact (hf a _ u h1).keeps h2 (hm.keeps h1 hs)

theorem bind {m : Lower α} {f : α → Lower β} (hm : Clears back due due' m)
    (hf : ∀ a, Clears back due' due'' (f a)) : Clears back due due'' (m >>= f) :=
  hm.bind_of fun a _ _ _ => hf a

theorem part {m : Lower α} (hm : Clears back [] [] m) : Clears back due due m :=
  ⟨fun h hs => hs.trans (hm.keeps h (.start_over hs.ordered))⟩

theorem reorder {m : Lower α} (hperm : due.Perm due') (hm : Clears back due' due'' m) :
    Clears back due due'' m :=
  ⟨fun h hs => hm.keeps h (hs.perm hperm)⟩

theorem emit (hi : i.isTerminator = false) : Clears back due due (Lower.emit i) :=
  ⟨fun h hs => by rw [gives_emit.mp h]; exact hs.emit hi⟩

theorem terminate (hi : ∀ t ∈ i.successors, t ∈ due) : Clears back due due (Lower.terminate i) :=
  ⟨fun h hs => by rw [gives_terminate.mp h]; exact hs.leave hi⟩

theorem label {f : BlockId → Lower α} (hf : ∀ l, Clears back (l :: due) due' (f l)) :
    Clears back due due' (Lower.label >>= f) := by
  refine ⟨fun h hs => ?_⟩
  obtain ⟨l, u, h1, h2⟩ := gives_bind.mp h
  obtain ⟨rfl, rfl⟩ := gives_label.mp h1
  exact (hf _).keeps h2 hs.label

theorem start (l : BlockId) : Clears back (l :: due) due (Lower.start l) :=
  ⟨fun h hs => by rw [(gives_start.mp h).2]; exact hs.start⟩

theorem startThen {m : Lower Unit} (hm : Clears back due due m) :
    Clears back (l :: due) due (Lower.startThen l m) := by
  refine (start l).bind fun b => ?_
  cases b
  · exact pure ()
  · exact hm

theorem resume (l : BlockId) : Clears back due due (Lower.resume l) :=
  ⟨fun h hs => by rw [gives_resume.mp h]; exact hs.resume l⟩

theorem straight : Straight .free (fun _ _ _ => True) fun _ _ _ m _ => Clears back [] [] m where
  plain _ := trivial
  pure a _ := pure a
  bind_of := bind_of
  lift _ _ := same fun h => (gives_lift.mp h).2
  stop _ := ⟨fun h => (not_gives_stop h).elim⟩
  emit hi _ := emit hi

theorem resumeOrRethrow : Clears back [] [] Site.resumeOrRethrow := by
  refine label fun resumed => label fun rethrow => ?_
  refine (part (straight.emitAll (x := ()) (by simp [Inst.isTerminator]))).bind fun _ => ?_
  refine (terminate (by simp [Inst.successors])).bind fun _ => ?_
  refine .reorder (.swap ..) ((start resumed).bind fun _ => (emit rfl).bind fun _ => ?_)
  exact (start rethrow).bind fun _ => (terminate (by simp [Inst.successors])).bind fun _ => resume resumed

theorem tracked : Tracked .free (fun _ _ _ => True) (fun _ _ _ m _ => Clears back [] [] m)
    fun _ p q _ m _ => Clears back p.due q.due m where
  toStraight := straight
  part := part
  whole h := h
  andThen := bind_of
  reorder := reorder
  ask _ hstate := same hstate
  relax h := h
  terminate _ hdue := terminate hdue
  label _ hk := label fun l => hk l l
  labels _ _ hk := label fun a => label fun b => .reorder (.swap ..) (hk a a b b)
  start _ := start _
  startThen _ hm := startThen hm
  ifReachable hm := (same fun h => (gives_isReachable.mp h).2).bind fun reachable => by
    cases reachable
    · exact pure ()
    · exact hm
  isReferenced _ := same fun h => (gives_isReferenced.mp h).2
  resumeOrRethrow := resumeOrRethrow
  handlerEnd _ _ := by
    refine (start _).bind fun joined => (startThen (terminate (by simp [Inst.successors]))).bind fun _ => ?_
    cases joined
    · exact pure ()
    · exact resume _

end Clears

/-! ## Loops -/

/-- What lowering a loop does before it comes to the body. It gives the header. -/
def Site.enterLoop (test : Lower Unit) : Lower BlockId := do
  let header ← Lower.label
  let bodyLabel ← Lower.label
  let exit ← Lower.label
  Lower.branch header
  let _ ← Lower.start header
  test
  Lower.branchIf bodyLabel exit
  let _ ← Lower.start bodyLabel
  pure header

theorem Clears.loop {test body : Lower Unit} (ht : Clears back [] [] test) (hb : Clears back [] [] body)
    (hback : ∀ {s header u v n}, (Site.enterLoop test).Gives s header u → body.Gives u () v →
      v.draft.current = some n → back ⟨n⟩ header (v.draft.code ⟨n⟩ ++ [.branch header])) (mode : Mode) :
    Clears back [] [] (Site.loop test body mode) := by
  refine ⟨fun {d0 s _ t} h hs => ?_⟩
  simp only [Site.loop, gives_bind] at h
  obtain ⟨header, s1, h1, bodyLabel, s2, h2, exit, s3, h3, _, s4, h4, h5⟩ := h
  have p3 : Pending back d0 [exit, bodyLabel, header] s3.draft := by
    obtain ⟨rfl, rfl⟩ := gives_label.mp h1
    obtain ⟨rfl, rfl⟩ := gives_label.mp h2
    obtain ⟨rfl, rfl⟩ := gives_label.mp h3
    exact hs.label.label.label
  have p4 := (Clears.terminate (by simp [Inst.successors])).keeps h4 p3
  have p5 := (p4.perm (((Perm.swap ..).cons exit).trans (.swap ..))).start
  rw [gives_startThen] at h5
  split at h5
  swap
  · rw [h5]
    exact { p5 with nodup := nodup_nil, fresh := forall_mem_nil _ }
  simp only [gives_bind] at h5
  obtain ⟨_, s6, h6, _, s7, h7, _, s8, h8, h9⟩ := h5
  have p6 := ht.keeps h6 (.start_over p5.ordered)
  have p7 := (Clears.terminate (by simp [Inst.successors])).keeps h7 (p5.trans p6)
  have p8 := (p7.perm (.swap ..)).start
  refine (Clears.startThen (part (straight.unitIfValue (x := ()) mode))).keeps h9 ?_
  rw [gives_startThen] at h8
  split at h8
  swap
  · rw [h8]
    exact p8
  obtain ⟨_, v, hbody, hclose⟩ := gives_bind.mp h8
  have pv := hb.keeps hbody (.start_over p8.ordered)
  have henter : (Site.enterLoop test).Gives s header ⟨(s7.draft.start bodyLabel).2, s7.strings⟩ := by
    simp only [Site.enterLoop, gives_bind]
    exact ⟨_, _, h1, _, _, h2, _, _, h3, _, _, h4, _, _, gives_start.mpr ⟨rfl, rfl⟩, _, _, h6, _, _, h7,
      _, _, gives_start.mpr ⟨rfl, rfl⟩, gives_pure.mpr ⟨rfl, rfl⟩⟩
  have hheader : header.index < v.draft.labels.size := by
    have hlt := (p4.fresh header (by simp)).2.1
    have htest := p6.grows.size
    have hrest := pv.grows.size
    rw [gives_terminate.mp h7] at hrest
    simp only [Draft.size_start, Draft.size_terminate] at htest hrest
    omega
  rw [gives_terminate.mp hclose]
  refine (p8.trans pv).terminate (by simpa [Inst.successors] using hheader) fun n t hn ht _ => ?_
  rw [Inst.successors, mem_singleton] at ht
  rw [ht]
  exact hback henter hbody hn

/-- The code at the label ends with the branch that closes the body of a loop of the function,
back to the header of the loop. -/
def Site.ClosesLoop (site : Site) (l header : BlockId) (code : List Inst) : Prop :=
  ∃ ty test body regions s u v,
    Node.expr (.loop ty test body) ∈ site.function.exprs.flatMap Expr.nodes ∧
    (Site.enterLoop (site.lower test regions .value)).Gives s header u ∧
    (site.lower body regions .effect).Gives u () v ∧ v.draft.current = some l.index ∧
    code = v.draft.code l ++ [.branch header]

theorem Clears.lowerEntry (site : Site) : Clears site.ClosesLoop [] [] site.lowerEntry := by
  have w : Walks site site.program .free (· ∈ site.function.exprs.flatMap Expr.nodes) (fun _ => True)
      (fun _ _ _ => True) (fun _ _ _ m _ => Clears site.ClosesLoop [] [] m)
      fun _ p q _ m _ => Clears site.ClosesLoop p.due q.due m :=
    { toTracked := tracked
      permits := .all _ _ _ fun _ _ _ _ => trivial
      source := rfl
      string := fun _ => tracked.emitString (x := ()) (fun _ => trivial) fun hm => ⟨fun h hs => hm h ▸ hs⟩
      loop := fun mode hn ht hb => ht.loop hb
        (fun henter hbody hc => ⟨_, _, _, _, _, _, _, hn, henter, hbody, hc, rfl⟩) mode }
  exact w.lowerEntry (o := none) (x := ()) (y := ()) trivial (fun e he n hn => mem_flatMap.mpr ⟨e, he, hn⟩)
    (.inl Discipline.flat_free)

/-! ## Functions -/

variable {p : Program} {options : CompileOptions} {f : FunctionDecl} {strings pool : Array String}
  {body : Body} {t : LowerState}

theorem Draft.Before.number_lt {x : BlockId} (hd : d.WF) (h : d.Before l x) :
    (d.number l).index < (d.number x).index := by
  obtain ⟨pre, post, horder, hl⟩ := h
  obtain ⟨j, hj, hget⟩ := mem_iff_getElem.mp hl
  have hfirst : d.order.toList[j]? = some l.index := by
    rw [horder, getElem?_append_left hj, getElem?_eq_getElem hj, hget]
  have hlast : d.order.toList[pre.length]? = some x.index := by simp [horder]
  rw [Draft.number, Draft.number, Draft.numberOf?_eq_some hd hfirst, Draft.numberOf?_eq_some hd hlast]
  exact hj

theorem LoweredFrom.ordered (h : LoweredFrom p f strings body t) :
    t.draft.Ordered (Site.ClosesLoop ⟨p, f, body.params ++ body.locals⟩) := by
  refine ((Clears.lowerEntry _).keeps h.entry (.start_over ⟨Draft.wf_initial, fun l x hx => ?_⟩)).ordered
  obtain ⟨i, hi, _⟩ := hx
  rw [Draft.code, Draft.stateOf_initial] at hi
  split at hi <;> cases hi

theorem LoweredFrom.backward (h : LoweredFrom p f strings body t) {b : Block} (hb : b ∈ body.blocks)
    {k : BlockId} (hk : k ∈ b.successors) (hle : k.index ≤ b.id.index) :
    ∃ l header, Site.ClosesLoop ⟨p, f, body.params ++ body.locals⟩ l header (t.draft.code l) ∧
      b = t.draft.blockAt b.id.index l.index ∧ b.terminator? = some (.branch k) ∧
      t.draft.number header = k := by
  have hwf := h.finished.wf
  rw [h.blocks] at hb
  obtain ⟨n, label, hn, hstarted, rfl⟩ := Draft.exists_label_of_mem hwf hb
  obtain ⟨x, htargets, rfl⟩ := (Draft.mem_successors_blockAt h.finished hstarted).mp hk
  have hnumber : t.draft.number ⟨label⟩ = ⟨n⟩ := by
    rw [Draft.number, Draft.numberOf?_eq_some hwf hn]
    rfl
  rcases h.ordered.forward _ x htargets (h.finished.started x (hwf.referenced_of_targets _ x htargets))
    with hbefore | hback
  · have hlt := hbefore.number_lt hwf
    rw [hnumber] at hlt
    exact absurd hle hlt.not_ge
  · obtain ⟨_, _, _, _, _, _, _, _, _, _, _, hcode⟩ := id hback
    refine ⟨⟨label⟩, x, hback, rfl, ?_, rfl⟩
    simp [Draft.blockAt, Block.terminator?, hcode, Inst.mapTargets, Inst.isTerminator]

/-- A block branches to one that does not come after it only with the branch that closes a loop, to
the header of the loop. So where there are no loops every branch goes forward, and no way leads
from a block back to it. -/
theorem backward_branches_close_loops
    (h : lowerFunction p options f strings = .ok (body, pool)) :
    ∃ t, LoweredFrom p f strings body t ∧
      (∀ b ∈ body.blocks, ∀ k ∈ b.successors, k.index ≤ b.id.index →
        ∃ l header, Site.ClosesLoop ⟨p, f, body.params ++ body.locals⟩ l header (t.draft.code l) ∧
          b = t.draft.blockAt b.id.index l.index ∧ b.terminator? = some (.branch k) ∧
          t.draft.number header = k) ∧
      ((∀ ty test body', Node.expr (.loop ty test body') ∉ f.exprs.flatMap Expr.nodes) →
        (∀ b ∈ body.blocks, ∀ k ∈ b.successors, b.id.index < k.index) ∧
          ∀ k, ¬ Relation.TransGen (BlockStep body.blocks) k k) := by
  obtain ⟨t, hfrom, _⟩ := lowerFunction_ok h
  refine ⟨t, hfrom, fun b hb k hk hle => hfrom.backward hb hk hle, fun hloops => ?_⟩
  have hforward : ∀ b ∈ body.blocks, ∀ k ∈ b.successors, b.id.index < k.index := by
    intro b hb k hk
    by_contra hle
    obtain ⟨_, _, ⟨_, _, _, _, _, _, _, hloop, _⟩, _⟩ := hfrom.backward hb hk (Nat.le_of_not_lt hle)
    exact hloops _ _ _ hloop
  refine ⟨hforward, fun k hk => ?_⟩
  have hstep : ∀ i j, BlockStep body.blocks i j → i < j := by
    rintro i j ⟨b, hb, hj⟩
    have hid := (hfrom.blocks ▸ hfrom.finished.blockGraph).numbered i b hb
    have hlt := hforward b (mem_of_getElem? hb) _ hj
    rwa [hid] at hlt
  have hlt : ∀ {i j}, Relation.TransGen (BlockStep body.blocks) i j → i < j := by
    intro i j hij
    induction hij with
    | single h => exact hstep _ _ h
    | tail _ h ih => exact ih.trans (hstep _ _ h)
  exact (hlt hk).false

/-- The function `while (flag) 1`. -/
def FunctionDecl.spinning : FunctionDecl :=
  { FunctionDecl.waiting with
    body := some (.mkBlock [.expr (.mkLoop (.variable .boolean ⟨0⟩) (.ofLiteral (.i32 1))),
      .expr (.ofLiteral (.i32 2))]) }

theorem backward_branches_close_loops_spinning : ∃ body pool, ∃ t : LowerState,
    lowerFunction (.waiting none) .standard .spinning #[] = .ok (body, pool) ∧
    body.blocks[2]? = some ⟨⟨2⟩, [.i32 1, .drop, .branch ⟨1⟩]⟩ ∧
    ∃ l header, Site.ClosesLoop ⟨.waiting none, .spinning, body.params ++ body.locals⟩ l header
      (t.draft.code l) ∧ t.draft.number header = ⟨1⟩ := by
  obtain ⟨body, pool, h, hblock⟩ : ∃ body pool,
      lowerFunction (.waiting none) .standard .spinning #[] = .ok (body, pool) ∧
        body.blocks[2]? = some ⟨⟨2⟩, [.i32 1, .drop, .branch ⟨1⟩]⟩ := ⟨_, _, by cbv, by cbv⟩
  obtain ⟨t, _, hback, _⟩ := backward_branches_close_loops h
  obtain ⟨l, header, hcloses, _, _, hheader⟩ := hback _ (mem_of_getElem? hblock) ⟨1⟩ (by decide) (by decide)
  exact ⟨body, pool, t, h, hblock, l, header, hcloses, hheader⟩

end StackBackend
