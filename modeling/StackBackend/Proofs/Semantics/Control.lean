import StackBackend.Proofs.Semantics.Accesses

/-! Branches and loops. -/

namespace StackBackend

namespace Tidy

variable {m m' : Lower Unit}

theorem shortCircuit (hm : Tidy m) (needed : Bool) : Tidy (Site.shortCircuit m needed) where
  neat := Neat.composes.shortCircuit (b := m) (x := ()) needed hm.neat
  emits := Emits.composes.shortCircuit (b := m) (x := ()) needed hm.emits

theorem twoArms (hm : Tidy m) (hm' : Tidy m') : Tidy (Site.twoArms m m') where
  neat := Neat.composes.twoArms (b := m) (d := m') (x := ()) (y := ()) hm.neat hm'.neat
  emits := Emits.composes.twoArms (b := m) (d := m') (x := ()) (y := ()) hm.emits hm'.emits

theorem oneArm (hm : Tidy m) (mode : Mode) : Tidy (Site.oneArm m mode) where
  neat := Neat.composes.oneArm (b := m) (x := ()) mode hm.neat
  emits := Emits.composes.oneArm (b := m) (x := ()) mode hm.emits

theorem loop (hm : Tidy m) (hm' : Tidy m') (mode : Mode) : Tidy (Site.loop m m' mode) where
  neat := .loop hm.neat hm'.neat mode
  emits := Emits.composes.loop (b := m) (d := m') (x := ()) mode hm.emits hm'.emits

end Tidy

namespace Image

variable {β γ : Type} {I : Image} {t : LowerState} {l b : BlockId} {regions : List Region}
  {pre : List Value} {m m' : Lower Unit} {act act' : Meaning β} {post : β → List Value}
  {dest : Option Place}

theorem Runs.arm (h : I.Realizes regions pre m act post) (harm : Arm m l b t) (ht : I.Installed t)
    (hb : t.draft.isReferenced b = true → dest = some (b, 0)) :
    I.Runs regions (l, 0) pre act (fun _ => dest) post := by
  obtain ⟨s0, t0, hm, hs, hl, het, hend⟩ := harm
  refine (h.runs hm hs (ht.mono het) hl).before fun b Q hQ => ?_
  obtain ⟨hlaid, href⟩ := hend Q hQ
  exact ⟨_, hb href, jumps_branch ht hlaid⟩

namespace Realizes

theorem truth {v : Value} {f : Bool → Meaning β} (hm : Tidy m)
    (h : ∀ b, v = .boolean b → I.Realizes regions [.boolean b] m (f b) post) :
    I.Realizes regions [v] m (Meaning.truth v >>= f) post := by
  cases v with
  | boolean b => exact h b rfl
  | _ => exact stuck hm

theorem ignore (h : I.Realizes regions pre m act fun _ => []) :
    I.Realizes regions pre m act.ignore fun _ => [] :=
  h.yield (fun _ => ()) fun _ => rfl

theorem twoArms (h : I.Realizes regions [] m act post) (h' : I.Realizes regions [] m' act' post)
    (c : Bool) :
    I.Realizes regions [.boolean c] (Site.twoArms m m') (if c then act else act') post := by
  refine ⟨h.tidy.twoArms h'.tidy, fun {s t P} hgives hs ht hP => ?_⟩
  obtain ⟨trueLabel, falseLabel, join, hlaid, harm, harm', hjoin⟩ :=
    twoArms_shape h.tidy h'.tidy hgives hs hP
  refine .after (jumps_branchIf [] ht hlaid) ?_
  cases c with
  | true => exact .arm h harm ht hjoin
  | false => exact .arm h' harm' ht hjoin

theorem oneArm (h : I.Realizes regions [] m act fun _ => []) (c : Bool) (mode : Mode) :
    I.Realizes regions [.boolean c] (Site.oneArm m mode)
      (if c then do act.ignore; Pure.pure Value.unit else Pure.pure Value.unit) mode.leaves := by
  refine ⟨h.tidy.oneArm mode, fun {s t P} hgives hs ht hP => ?_⟩
  obtain ⟨trueLabel, join, u, hlaid, harm, hu, hplace, hunit⟩ := oneArm_shape h.tidy hgives hs hP
  have hrest : I.Runs regions (join, 0) [] (Pure.pure Value.unit) (fun _ => t.draft.place)
      mode.leaves := (unitIfValue mode).runs hunit hu ht hplace
  refine .after (jumps_branchIf [] ht hlaid) ?_
  cases c with
  | true => exact (Runs.arm h.ignore harm ht fun _ => rfl).bind fun _ Q hQ => by cases hQ; exact hrest
  | false => exact hrest

theorem shortCircuit {act : Meaning Value} (h : I.Realizes regions [] m act fun v => [v])
    (needed c : Bool) :
    I.Realizes regions [.boolean c] (Site.shortCircuit m needed)
      (if c = needed then act else Pure.pure (.boolean c)) fun v => [v] := by
  refine ⟨h.tidy.shortCircuit needed, fun {s t P} hgives hs ht hP => ?_⟩
  obtain ⟨onRight, join, hdup, hlaid, harm, hjoin⟩ := shortCircuit_shape h.tidy hgives hs hP
  have hright : I.Realizes regions [.boolean c] (do Lower.emit .drop; m) act fun v => [v] :=
    arrange (emit_pure rfl () fun m base => rfl) h
  have hcopy : I.Runs regions P [.boolean c] (Pure.pure ()) (fun _ => some (P.1, P.2 + 1))
      fun _ => [.boolean c, .boolean c] := by
    refine .of_effect ht hdup rfl fun base hact hagrees => ?_
    cases hact
    exact ⟨_, _, rfl, rfl, hagrees⟩
  have hjump : I.Jumps (P.1, P.2 + 1) [.boolean c, .boolean c]
      (if c = needed then onRight else join, 0) [.boolean c] := by
    cases c <;> cases needed <;> exact jumps_branchIf [_] ht hlaid
  refine hcopy.arrange (.after hjump ?_)
  split
  · exact .arm hright harm ht fun _ => hjoin
  · exact .pure _ hjoin rfl

theorem loop {test : Meaning Value} {body : Meaning Unit}
    (ht : I.Realizes regions [] m test fun v => [v])
    (hb : I.Realizes regions [] m' body fun _ => []) (mode : Mode) (rounds : Nat) :
    I.Realizes regions [] (Site.loop m m' mode) (Meaning.iterate test body rounds) mode.leaves := by
  refine ⟨ht.tidy.loop hb.tidy mode, fun {s t P} hgives hs hinst hP => ?_⟩
  obtain ⟨header, s0, t0, hlaid, htest, hwf, hplace, hext, hrest⟩ :=
    loop_shape ht.tidy hb.tidy hgives hs hP
  refine .after (jumps_branch hinst hlaid) ?_
  -- Each round begins and ends at the header.
  induction rounds with
  | zero => exact .stuck
  | succ rounds ih =>
    refine (ht.runs htest hwf (hinst.mono hext) hplace).bind fun v Q hQ => ?_
    obtain ⟨bodyLabel, exit, u, hbranch, harm, hu, hexit, hunit⟩ := hrest Q hQ
    cases v with
    | boolean c =>
      refine .after (jumps_branchIf [] hinst hbranch) ?_
      cases c with
      | true =>
        exact (Runs.arm hb harm hinst fun _ => rfl).bind fun _ Q hQ => by cases hQ; exact ih
      | false => exact (unitIfValue mode).runs hunit hu hinst hexit
    | _ => exact .stuck

end Realizes

end Image

end StackBackend
