import StackBackend.Proofs.Semantics.Control

/-! Protected regions. A `return` closes the open regions and runs their cleanups on
its way out. An exception is tried on the clauses in turn, and what none of them takes
is thrown on after the cleanup. -/

namespace StackBackend

open Lower

variable {typeofSlot subtypeSlot : Nat} {site : Site} {x : Value} {s t : LowerState}

namespace Meaning

variable {α : Type} {m : Meaning α} {cleanup : Meaning Unit} {σ σ' : Source}

theorem observe_eq_some {o : Except Exit (Except Exit α)} :
    m.observe σ = some (o, σ') ↔ ∃ o', m σ = some (o', σ') ∧ o = .ok o' := by
  unfold observe
  rcases m σ with _ | ⟨o', σ''⟩
  · simp
  · simp only [Option.map_some, Option.some.injEq, Prod.mk.injEq]
    constructor
    · rintro ⟨rfl, rfl⟩; exact ⟨o', ⟨rfl, rfl⟩, rfl⟩
    · rintro ⟨_, ⟨rfl, rfl⟩, rfl⟩; exact ⟨rfl, rfl⟩

theorem catching_cases {o : Except Exit (Except Value α)} (h : m.catching σ = some (o, σ')) :
    (∃ a, m σ = some (.ok a, σ') ∧ o = .ok (.ok a)) ∨
    (∃ x, m σ = some (.error (.thrown x), σ') ∧ o = .ok (.error x)) ∨
    ∃ v, m σ = some (.error (.returned v), σ') ∧ o = .error (.returned v) := by
  rcases bind_eq_some.mp h with ⟨a, σ1, h1, h2⟩ | ⟨x, σ1, h1, h2⟩
  · obtain ⟨o', h1, ha⟩ := observe_eq_some.mp h1
    cases ha
    rcases a with (v | x) | a <;> cases h2
    · exact .inr (.inr ⟨v, h1, rfl⟩)
    · exact .inr (.inl ⟨x, h1, rfl⟩)
    · exact .inl ⟨a, h1, rfl⟩
  · obtain ⟨_, _, h⟩ := observe_eq_some.mp h1
    cases h

theorem leaving_cases {o : Except Exit α} (h : m.leaving cleanup σ = some (o, σ')) :
    m σ = some (o, σ') ∧ (∀ v, o ≠ .error (.returned v)) ∨
    ∃ v σ1, m σ = some (.error (.returned v), σ1) ∧
      (cleanup >>= fun _ => exit (.returned v)) σ1 = some (o, σ') := by
  rcases bind_eq_some.mp h with ⟨a, σ1, h1, h2⟩ | ⟨x, σ1, h1, h2⟩
  · obtain ⟨o', h1, ha⟩ := observe_eq_some.mp h1
    cases ha
    rcases a with (v | x) | a
    · exact .inr ⟨v, σ1, h1, h2⟩
    · cases h2
      exact .inl ⟨h1, nofun⟩
    · cases h2
      exact .inl ⟨h1, nofun⟩
  · obtain ⟨_, _, h⟩ := observe_eq_some.mp h1
    cases h

end Meaning

namespace Tidy

theorem close : Tidy Region.close :=
  ⟨Neat.composes.close (h := ⟨0⟩) (x := ()), Emits.composes.close (h := ⟨0⟩) (x := ())⟩

/-- The code of each cleanup is tidy. -/
def Cleanups (regions : List Region) : Prop := ∀ r ∈ regions, ∀ code ∈ r.cleanup, Tidy code

theorem leaveAll {regions : List Region} (hr : Cleanups regions) : Tidy (Region.leaveAll regions) := by
  obtain ⟨_, _, hneat⟩ := Neat.composes.leaveAll
    (.refl Neat.straight fun r hm code hc => (hr r hm code hc).neat)
  obtain ⟨_, _, hemits⟩ := Emits.composes.leaveAll
    (.refl Emits.composes.toStraight fun r hm code hc => (hr r hm code hc).emits)
  exact ⟨hneat, hemits⟩

theorem terminate {i : Inst} (hi : i.isTerminator = true) (hs : i.successors = []) :
    Tidy (Lower.terminate i) :=
  ⟨.leave hi hs, .terminate trivial⟩

end Tidy

namespace Image

variable {β : Type} {I : Image} {regions : List Region} {code : Option (Lower Unit)} {v : Value}
  {base pre : List Value} {r : Running} {P : Place} {act : Meaning β} {dest : β → Option Place}
  {post : β → List Value} {clean : Meaning Unit}

/-! ## Leaving regions -/

theorem Leaving.close {h : BlockId × Nat} {outer : List (BlockId × Nat)}
    (hl : I.Leaving (⟨code, true⟩ :: regions) v base r) (hh : r.handlers = h :: outer)
    (hcode : Tidy (code.getD (pure ()))) (hr : Tidy.Cleanups regions) :
    ∃ r', I.machine.step r = some (.running r') ∧
      I.Leaving (⟨code, false⟩ :: regions) v base r' ∧ r'.handlers = outer ∧
      r'.memory = r.memory := by
  obtain ⟨u, w, P, above, hgives, hwf, hw, hP, hat, hstack⟩ := hl
  obtain ⟨_, u3, h1, h4⟩ := gives_bind.mp hgives
  obtain ⟨_, u2, h1, h3⟩ := gives_bind.mp
    (show ((⟨code, true⟩ : Region).leave >>= fun _ => Region.leaveAll regions).Gives u _ u3 from h1)
  obtain ⟨_, u1, h1, h2⟩ := gives_bind.mp
    (show (Region.close >>= fun _ => code.getD (pure ())).Gives u _ u2 from h1)
  obtain ⟨next, hlaid, hplace⟩ := close_shape h1 hwf hP
  have f1 := Tidy.close.forward h1 hwf
  have f2 := hcode.forward h2 f1.wf
  have f3 := (Tidy.leaveAll hr).forward h3 f2.wf
  have f4 := (Tidy.terminate rfl rfl).forward h4 f3.wf
  have hext := f2.extended.trans (f3.extended.trans f4.extended)
  refine ⟨{ r with block := I.number next, offset := 0, handlers := outer }, ?_,
    ⟨u1, w, (next, 0), above, ?_, f1.wf, hw, hplace, ⟨rfl, rfl⟩, hstack⟩, rfl, rfl⟩
  · rw [step_at hw (hext.laid hlaid) hat]
    change I.machine.exec (.popTry (I.number next)) r = _
    unfold Machine.exec
    rw [hh]
  · refine gives_bind.mpr ⟨(), u3, ?_, h4⟩
    exact gives_bind.mpr ⟨(), u2, h2, h3⟩

theorem Leaving.cleanup {σ σ' : Source} {o : Except Exit β}
    (hl : I.Leaving (⟨code, false⟩ :: regions) v base r)
    (hcode : I.Realizes regions [] (code.getD (Pure.pure ())) clean fun _ => [])
    (hr : Tidy.Cleanups regions) (hagrees : I.Agrees σ r.memory)
    (hheights : ∀ h ∈ r.handlers, h.2 ≤ base.length)
    (hact : (clean >>= fun _ => Meaning.exit (.returned v)) σ = some (o, σ')) :
    ∃ c, I.machine.Reaches (.running r) c ∧ I.Lands regions dest post base r.handlers o σ' c := by
  obtain ⟨u, w, P, above, hgives, hwf, hw, hP, hat, hstack⟩ := hl
  obtain ⟨_, u2, h1, h3⟩ := gives_bind.mp hgives
  obtain ⟨_, u1, h1, h2⟩ := gives_bind.mp
    (show (code.getD (pure ()) >>= fun _ => Region.leaveAll regions).Gives u _ u2 from h1)
  have f1 := hcode.tidy.forward h1 hwf
  have f2 := (Tidy.leaveAll hr).forward h2 f1.wf
  have f3 := (Tidy.terminate rfl rfl).forward h3 f2.wf
  have hruns := hcode.runs h1 hwf (hw.mono (f2.extended.trans f3.extended)) hP
  -- The value to return lies below what the cleanup uses.
  have hbelow : ∀ h ∈ r.handlers, h.2 ≤ (v :: (above ++ base)).length := fun h hm =>
    (hheights h hm).trans (by simp; omega)
  rcases Meaning.bind_eq_some.mp hact with ⟨_, σ1, hclean, hexit⟩ | ⟨x, σ1, hclean, ho⟩
  · cases hexit
    obtain ⟨c, hreach, hland⟩ := hruns.run hclean hat hstack hagrees hbelow
    obtain ⟨place, control, stack, handlers_eq, agrees⟩ := hland
    refine ⟨_, hreach, .returned ⟨u1, w, _, above, ?_, f1.wf, hw, place, control, stack⟩
      handlers_eq agrees⟩
    exact gives_bind.mpr ⟨(), u2, h2, h3⟩
  · cases ho
    obtain ⟨c, hreach, hland⟩ := hruns.run hclean hat hstack hagrees hbelow
    refine ⟨c, hreach, ?_⟩
    cases hland with
    | thrown isObject agrees =>
      rw [show v :: (above ++ base) = (v :: above) ++ base from rfl, raise_append hheights]
      exact .thrown isObject agrees
    | returned leaving handlers_eq agrees =>
      obtain ⟨u', w', P', above', hgives', hwf', hw', hP', hat', hstack'⟩ := leaving
      refine .returned ⟨u', w', P', above' ++ v :: above, hgives', hwf', hw', hP', hat', ?_⟩
        handlers_eq agrees
      rw [hstack']
      simp

theorem Runs.leaving (h : I.Runs (⟨code, false⟩ :: regions) P pre act dest post)
    (hcode : I.Realizes regions [] (code.getD (Pure.pure ())) clean fun _ => [])
    (hr : Tidy.Cleanups regions) : I.Runs regions P pre (act.leaving clean) dest post := by
  refine ⟨fun hact hat hstack hagrees hheights => ?_⟩
  rcases Meaning.leaving_cases hact with ⟨hact, hne⟩ | ⟨v, σ1, hact, hclean⟩
  · obtain ⟨c, hreach, hland⟩ := h.run hact hat hstack hagrees hheights
    refine ⟨c, hreach, ?_⟩
    cases hland with
    | completed place control stack handlers_eq agrees =>
      exact .completed place control stack handlers_eq agrees
    | thrown isObject agrees => exact .thrown isObject agrees
    | returned => exact (hne _ rfl).elim
  · obtain ⟨c, hreach, hland⟩ := h.run hact hat hstack hagrees hheights
    cases hland with
    | returned leaving handlers_eq agrees =>
      obtain ⟨c', hreach', hland'⟩ := leaving.cleanup hcode hr agrees
        (by rw [handlers_eq]; exact hheights) hclean
      rw [handlers_eq] at hland'
      exact ⟨c', hreach.trans hreach', hland'⟩

namespace Realizes

theorem ret (hr : Tidy.Cleanups regions) (v : Value) :
    I.Realizes regions [v] (do Region.leaveAll regions; Lower.terminate .ret)
      (Meaning.exit (.returned v)) post := by
  refine ⟨.bind (.leaveAll hr) fun _ => .terminate rfl rfl, fun hgives hs ht hP => ?_⟩
  refine ⟨fun {σ o σ' r base} hact hat hstack hagrees _ => ?_⟩
  cases hact
  exact ⟨_, .refl _, .returned ⟨_, _, _, [], hgives, hs, ht, hP, hat, hstack⟩ rfl hagrees⟩

theorem throw (x : Value) : I.Realizes regions [x] (Lower.terminate .throw)
      (do let _ ← Meaning.read fun σ => Runtime.classOf? σ.world x; Meaning.exit (.thrown x))
      post := by
  refine ⟨.terminate rfl rfl, fun {s t P} hgives hs ht hP => ?_⟩
  obtain ⟨_, _, hlaid⟩ := LowerState.Forward.of_terminate hgives hs (by simp [Inst.successors])
  obtain ⟨hlaid, _⟩ := hlaid P hP
  cases x with
  | object address =>
    refine ⟨fun hact hat hstack hagrees hheights => ?_⟩
    rcases Meaning.bind_eq_some.mp hact with ⟨_, σ1, hread, hexit⟩ | ⟨_, σ1, hread, _⟩
    · obtain ⟨rfl, _⟩ := Meaning.read_eq_some.mp hread
      exact (Runs.throw ht hlaid rfl).run hexit hat hstack hagrees hheights
    · obtain ⟨_, _, _, hok⟩ := Meaning.read_eq_some.mp hread
      cases hok
  | _ => exact .stuck

end Realizes

/-! ## The body -/

@[simp] theorem cutTo_length (base : List Value) : cutTo base.length base = base := by
  simp [cutTo]

/-- The body completes at the exit, and an exception gets to the handler. Either way the
region is closed then, and also where the function is left. -/
theorem Runs.protect {m : Lower Unit} {bodyLabel handler exit : BlockId} {s0 t0 u : LowerState}
    {exitPlace : Option Place} (h : I.Realizes (⟨code, true⟩ :: regions) [] m act post)
    (hcode : Tidy (code.getD (Pure.pure ()))) (hr : Tidy.Cleanups regions) (hu : I.Installed u)
    (hm : m.Gives s0 () t0) (hwf : s0.draft.WF) (hplace : s0.draft.place = some (bodyLabel, 0))
    (het : t0.Extends u) (hpush : u.Laid P (.pushTry bodyLabel handler))
    (hpop : ∀ Q, t0.draft.place = some Q →
      u.Laid Q (.popTry exit) ∧ exitPlace = some (exit, 0)) :
    I.Runs (⟨code, false⟩ :: regions) P [] act.catching
      (fun
        | .ok _ => exitPlace
        | .error x => if x.isObject then some (handler, 0) else none)
      (fun
        | .ok b => post b
        | .error x => [x]) := by
  refine ⟨fun {σ o σ' r base} hact hat hstack hagrees hheights => ?_⟩
  -- One more region is open inside the body.
  let inside : Running :=
    ⟨I.number bodyLabel, 0, base, (I.number handler, base.length) :: r.handlers, r.memory⟩
  have hopen : I.machine.step r = some (.running inside) := by
    rw [step_at hu hpush hat]
    change I.machine.exec (.pushTry (I.number bodyLabel) (I.number handler)) r = _
    unfold Machine.exec
    rw [hstack]
    rfl
  have hinside : ∀ {o}, act σ = some (o, σ') → ∃ c, I.machine.Reaches (.running r) c ∧
      I.Lands (⟨code, true⟩ :: regions) (fun _ => t0.draft.place) post base inside.handlers
        o σ' c := by
    intro o hact
    obtain ⟨c, hreach, hland⟩ := (h.runs hm hwf (hu.mono het) hplace).run hact
      (r := inside) ⟨rfl, rfl⟩ rfl hagrees (by simpa [inside] using hheights)
    exact ⟨c, .step hopen hreach, hland⟩
  rcases Meaning.catching_cases hact with ⟨b, hbody, rfl⟩ | ⟨x, hbody, rfl⟩ | ⟨v, hbody, rfl⟩
  · obtain ⟨c, hreach, hland⟩ := hinside hbody
    cases hland with
    | @completed _ _ r1 Q place control stack handlers_eq agrees =>
      obtain ⟨hlaid, hexit⟩ := hpop Q place
      have hclose : I.machine.step r1 = some (.running
          { r1 with block := I.number exit, offset := 0, handlers := r.handlers }) := by
        rw [step_at hu hlaid control]
        change I.machine.exec (.popTry (I.number exit)) r1 = _
        unfold Machine.exec
        rw [handlers_eq]
      exact ⟨_, hreach.trans (.step hclose (.refl _)),
        .completed hexit ⟨rfl, rfl⟩ stack rfl agrees⟩
  · obtain ⟨c, hreach, hland⟩ := hinside hbody
    cases hland with
    | thrown isObject agrees =>
      refine ⟨_, hreach, ?_⟩
      change I.Lands _ _ _ base r.handlers _ σ' (.running ⟨_, _, x :: cutTo _ _, _, _⟩)
      rw [cutTo_length]
      exact .completed (if_pos isObject) ⟨rfl, rfl⟩ rfl rfl agrees
  · obtain ⟨c, hreach, hland⟩ := hinside hbody
    cases hland with
    | returned leaving handlers_eq agrees =>
      obtain ⟨r', hstep, hleaving, hhandlers, hmemory⟩ := leaving.close handlers_eq hcode hr
      exact ⟨_, hreach.trans (.step hstep (.refl _)),
        .returned hleaving hhandlers (by rw [hmemory]; exact agrees)⟩

/-! ## Clauses -/

namespace Realizes

theorem testGuard (ht : I.machine.builtinSlot? objectClass typeofMethod = some typeofSlot)
    (hs : I.machine.builtinSlot? typeClass isSubtypeOfMethod = some subtypeSlot)
    (guard : Option ClassId) (x : Value) :
    I.Realizes regions [x] (Site.testGuard typeofSlot subtypeSlot guard)
      (I.machine.takes guard x) fun b => [.boolean b, x] := by
  refine emitAll (by simp [Inst.isTerminator]) fun {σ o σ' m} base hact hagrees => ?_
  obtain ⟨rfl, below, hbelow, rfl⟩ := Meaning.read_eq_some.mp hact
  obtain ⟨c, hc, hbelow⟩ := Option.bind_eq_some_iff.mp hbelow
  obtain ⟨address, rfl⟩ : ∃ address, x = .object address := by
    cases x <;> first | exact ⟨_, rfl⟩ | cases hc
  obtain ⟨object, hobject, rfl⟩ := Option.map_eq_some_iff.mp hc
  rw [← hagrees.world] at hobject
  refine ⟨below, { m with typeObjects := m.typeObjects ++
    [some object.cls, some (guard.getD exceptionClass)] }, rfl, ?_, ⟨hagrees.world, hagrees.vars⟩⟩
  simp [Machine.effects, Machine.effect_dup, Machine.effect_typeof, Machine.effect_typeAllocation,
    Machine.effect_classRef, Machine.effect_typeConstructor, Machine.effect_drop,
    Machine.effect_isSubtypeOf, hobject, ht, hs, hbelow]

theorem bindException (h : I.Hosts site) (binding : Option DefnId) (x : Value) :
    I.Realizes regions [x] (site.bindException binding) (Runtime.bindException binding x)
      fun _ => [] := by
  cases binding with
  | some d => exact storeLocal h
  | none => exact emit_pure rfl () fun m base => rfl

end Realizes

theorem Runs.bare (h : I.Runs regions P pre act dest post) :
    I.Runs (⟨none, false⟩ :: regions) P pre act dest post := by
  refine ⟨fun hact hat hstack hagrees hheights => ?_⟩
  obtain ⟨c, hreach, hland⟩ := h.run hact hat hstack hagrees hheights
  refine ⟨c, hreach, ?_⟩
  cases hland with
  | completed place control stack handlers_eq agrees =>
    exact .completed place control stack handlers_eq agrees
  | thrown isObject agrees => exact .thrown isObject agrees
  | returned leaving handlers_eq agrees => exact .returned leaving handlers_eq agrees

/-- Code that tries clauses on the exception at `next`, and says where those wait that
no clause takes. -/
structure Tries (I : Image) (regions : List Region) (m : (done next : BlockId) → Lower BlockId)
    (handle : Value → Meaning (Option β)) (post : β → List Value) : Prop where
  forward : ∀ {s noMatch t done next}, (m done next).Gives s noMatch t → s.draft.WF →
    s.draft.Awaits done next → t.draft.WF ∧ s.Extends t ∧ t.draft.Awaits done noMatch
  runs : ∀ {s noMatch t done next donePlace x}, (m done next).Gives s noMatch t → s.draft.WF →
    s.draft.Awaits done next → I.Installed t →
    (t.draft.isReferenced done = true → donePlace = some (done, 0)) →
    I.Runs regions (next, 0) [x] (handle x)
      (fun
        | some _ => donePlace
        | none => some (noMatch, 0))
      (fun
        | some b => post b
        | none => [x])

theorem Hosts.builtinSlot? (h : I.Hosts site) {c : ClassId} {method : FunctionId}
    {slot : Nat} (hslot : Site.slotIn? site.program method c = .ok (some slot)) :
    I.machine.builtinSlot? c method = some slot := by
  obtain ⟨cls, hcls, hslot⟩ := Checked.bind_eq_ok.mp hslot
  unfold Machine.builtinSlot? Runtime.layout?
  rw [h.program, entryAt_eq_ok.mp hcls]
  exact Except.ok.inj hslot

namespace Tries

variable {m : (done next : BlockId) → Lower BlockId} {handle : Value → Meaning (Option β)}

theorem none : I.Tries regions (fun _ next => Pure.pure next) (fun _ => Pure.pure Option.none)
    post where
  forward h hs hw := by
    obtain ⟨rfl, rfl⟩ := gives_pure.mp h
    exact ⟨hs, .refl _, hw⟩
  runs h hs hw ht hdone := by
    obtain ⟨rfl, rfl⟩ := gives_pure.mp h
    exact .pure _ rfl rfl

theorem bare (h : I.Tries regions m handle post) :
    I.Tries (⟨Option.none, false⟩ :: regions) m handle post where
  forward := h.forward
  runs hm hs hw ht hdone := (h.runs hm hs hw ht hdone).bare

theorem ask {α : Type} {x : Lower α} {m : α → (done next : BlockId) → Lower BlockId}
    (hquiet : ∀ {s a t}, x.Gives s a t → t = s)
    (h : ∀ {s a}, x.Gives s a s → I.Tries regions (m a) handle post) :
    I.Tries regions (fun done next => x >>= fun a => m a done next) handle post where
  forward hm hs hw := by
    obtain ⟨a, u, h1, h2⟩ := gives_bind.mp hm
    obtain rfl := hquiet h1
    exact (h h1).forward h2 hs hw
  runs hm hs hw ht hdone := by
    obtain ⟨a, u, h1, h2⟩ := gives_bind.mp hm
    obtain rfl := hquiet h1
    exact (h h1).runs h2 hs hw ht hdone

theorem askSlots (hosts : I.Hosts site)
    {m : (typeofSlot subtypeSlot : Nat) → (done next : BlockId) → Lower BlockId}
    (h : ∀ {typeofSlot subtypeSlot},
      I.machine.builtinSlot? objectClass typeofMethod = some typeofSlot →
      I.machine.builtinSlot? typeClass isSubtypeOfMethod = some subtypeSlot →
      I.Tries regions (m typeofSlot subtypeSlot) handle post) :
    I.Tries regions
      (fun done next => do
        let typeofSlot ← site.builtinSlot objectClass typeofMethod
        let subtypeSlot ← site.builtinSlot typeClass isSubtypeOfMethod
        m typeofSlot subtypeSlot done next)
      handle post :=
  ask (fun hx => (Site.gives_builtinSlot hx).1) fun htypeof =>
    ask (fun hx => (Site.gives_builtinSlot hx).1) fun hsubtype =>
      h (hosts.builtinSlot? (Site.gives_builtinSlot htypeof).2)
        (hosts.builtinSlot? (Site.gives_builtinSlot hsubtype).2)

theorem clause (hosts : I.Hosts site)
    (htypeof : I.machine.builtinSlot? objectClass typeofMethod = some typeofSlot)
    (hsubtype : I.machine.builtinSlot? typeClass isSubtypeOfMethod = some subtypeSlot)
    {body : Lower Unit} (h : I.Realizes regions [] body act post)
    (hrest : I.Tries regions m handle post) (binding : Option DefnId) (guard : Option ClassId) :
    I.Tries regions
      (fun done next => do
        let next ← site.clauseCode typeofSlot subtypeSlot binding guard body done next
        m done next)
      (fun x => do
        if ← I.machine.takes guard x then
          Runtime.bindException binding x
          let b ← act
          Pure.pure (some b)
        else handle x)
      post := by
  have hbody : ∀ x, I.Realizes regions [x] (site.bindException binding >>= fun _ => body)
      (Runtime.bindException binding x >>= fun _ => act) post := fun x =>
    (Realizes.bindException hosts binding x).bind fun _ => h
  have htidy := (hbody .unit).tidy
  refine ⟨fun hm hs hw => ?_, fun {s noMatch t done next donePlace x} hm hs hw ht hdone => ?_⟩
  · obtain ⟨other, u, h1, h2⟩ := gives_bind.mp hm
    obtain ⟨hwf1, hext1, hw1, _⟩ := clauseCode_shape htidy h1 hs hw
    obtain ⟨hwf2, hext2, hw2⟩ := hrest.forward h2 hwf1 hw1
    exact ⟨hwf2, hext1.trans hext2, hw2⟩
  · obtain ⟨other, u, h1, h2⟩ := gives_bind.mp hm
    obtain ⟨hwf1, hext1, hw1, matched, s0, t0, Q, htest, hwf, hplace, hQ, hext, hlaid, harm⟩ :=
      clauseCode_shape htidy h1 hs hw
    obtain ⟨hwf2, hext2, hw2⟩ := hrest.forward h2 hwf1 hw1
    have hguard : I.Runs regions (next, 0) [x] (I.machine.takes guard x)
        (fun _ => t0.draft.place) fun b => [.boolean b, x] :=
      (Realizes.testGuard htypeof hsubtype guard x).runs htest hwf (ht.mono (hext.trans hext2)) hplace
    refine hguard.bind fun takes Q' hQ' => ?_
    obtain rfl : Q = Q' := Option.some.inj (hQ.symm.trans hQ')
    refine .after (jumps_branchIf [x] ht (hext2.laid hlaid)) ?_
    cases takes with
    | true =>
      change I.Runs regions (matched, 0) [x] (Runtime.bindException binding x >>= fun _ =>
        act >>= fun b => Pure.pure (some b)) _ _
      rw [← bind_assoc]
      exact (Runs.arm (hbody x) (harm.mono hext2) ht hdone).bind fun b Q hQ =>
        .pure (some b) hQ rfl
    | false => exact hrest.runs h2 hwf1 hw1 ht hdone

end Tries

/-! ## Ends -/

/-- Code for what follows the body and the clauses: those that complete are at `done`,
and exceptions that no clause took wait at `noMatch`. -/
structure Ends (I : Image) (regions : List Region) (m : (done noMatch : BlockId) → Lower Unit)
    (clean : Meaning Unit) (post : β → List Value) : Prop where
  forward : ∀ {s t done noMatch}, (m done noMatch).Gives s () t → s.draft.WF →
    s.draft.Awaits done noMatch → s.Extends t
  completed : ∀ {s t done noMatch}, (m done noMatch).Gives s () t → s.draft.WF →
    s.draft.Awaits done noMatch → I.Installed t → s.draft.isReferenced done = true →
    ∀ b, I.Runs regions (done, 0) (post b) (do clean; Pure.pure b) (fun _ => t.draft.place) post
  thrown : ∀ {s t done noMatch}, (m done noMatch).Gives s () t → s.draft.WF →
    s.draft.Awaits done noMatch → I.Installed t → ∀ {x}, x.isObject = true →
    I.Runs regions (noMatch, 0) [x] (do clean; Meaning.exit (.thrown x))
      (fun _ => t.draft.place) post

theorem Ends.handlerEnd : I.Ends regions Site.handlerEnd (Pure.pure ()) post where
  forward h hs hw := (handlerEnd_shape h hs hw).1
  completed h hs hw _ hdone b := .pure b ((handlerEnd_shape h hs hw).2.2 hdone) rfl
  thrown h hs hw ht _ hx := .throw ht (handlerEnd_shape h hs hw).2.1 hx

theorem Runs.tellApart (h : Site.resumeOrRethrow.Gives s () t)
    (hs : s.draft.WF) (ht : I.Installed t) (hP : s.draft.place = some P)
    (hx : x.isReference = true) :
    ∃ resume rethrow, t.Laid (resume, 0) .drop ∧ t.Laid (rethrow, 0) .throw ∧
      t.draft.place = some (resume, 1) ∧
      I.Runs regions P [x] (Pure.pure ())
        (fun _ => some (if x = .null then resume else rethrow, 0)) fun _ => [x] := by
  obtain ⟨s0, t0, Q, resume, rethrow, htest, hwf, hP0, hQ, hext, hbranch, hdrop, hthrow, hplace⟩ :=
    resumeOrRethrow_shape h hs hP
  refine ⟨resume, rethrow, hdrop, hthrow, hplace, ?_⟩
  have hcompare : I.Realizes regions [x] (Lower.emitAll [.dup, .null, .sameObject]) (Pure.pure ())
      fun _ => [.boolean (x = .null), x] := by
    refine .emitAll (by simp [Inst.isTerminator]) fun base hact hagrees => ?_
    cases hact
    refine ⟨_, _, rfl, ?_, hagrees⟩
    simp [Machine.effects, Machine.effect_dup, Machine.effect_null, Machine.effect_sameObject, hx,
      show Value.null.isReference = true from rfl]
  have hjump : I.Jumps Q [.boolean (x = .null), x] (if x = .null then resume else rethrow, 0) [x] := by
    by_cases hnull : x = .null
    · rw [if_pos hnull, decide_eq_true hnull]
      exact jumps_branchIf [x] ht hbranch
    · rw [if_neg hnull, decide_eq_false hnull]
      exact jumps_branchIf [x] ht hbranch
  refine (hcompare.runs htest hwf (ht.mono hext) hP0).before fun _ Q' hQ' => ⟨_, rfl, ?_⟩
  obtain rfl : Q = Q' := Option.some.inj (hQ.symm.trans hQ')
  exact hjump

theorem Runs.resume (h : Site.resumeOrRethrow.Gives s () t) (hs : s.draft.WF)
    (ht : I.Installed t) (hP : s.draft.place = some P) (b : β) :
    I.Runs regions P (.null :: post b) (Pure.pure b) (fun _ => t.draft.place) post := by
  obtain ⟨resume, rethrow, hdrop, _, hplace, hruns⟩ := Runs.tellApart (x := .null) h hs ht hP rfl
  refine (hruns.frame (post b)).arrange ?_
  rw [hplace]
  refine .of_effect ht hdrop rfl fun base hact hagrees => ?_
  cases hact
  exact ⟨b, _, rfl, rfl, hagrees⟩

theorem Runs.rethrow (h : Site.resumeOrRethrow.Gives s () t) (hs : s.draft.WF)
    (ht : I.Installed t) (hP : s.draft.place = some P) (hx : x.isObject = true)
    (below : List Value) :
    I.Runs regions P (x :: below) (Meaning.exit (.thrown x)) dest post := by
  obtain ⟨address, rfl⟩ : ∃ address, x = .object address := by
    cases x <;> first | exact ⟨_, rfl⟩ | cases hx
  obtain ⟨resume, rethrow, _, hthrow, _, hruns⟩ :=
    Runs.tellApart (x := .object address) h hs ht hP rfl
  exact (hruns.frame below).arrange (.throw ht hthrow hx)

theorem Ends.cleanupEnd {m : Lower Unit} (hm : I.Realizes regions [] m clean fun _ => []) :
    I.Ends regions (Site.cleanupEnd m) clean post where
  forward h hs hw := by
    obtain ⟨_, _, _, hext, _⟩ := cleanupEnd_shape hm.tidy h hs hw
    exact hext
  completed {s t done noMatch} h hs hw ht hdone b := by
    obtain ⟨label, s0, t0, _, hnormal, _, hcode, hwf, hplace, hext, hwf', hend⟩ :=
      cleanupEnd_shape hm.tidy h hs hw
    have hmark : I.Realizes regions (post b) (Lower.emit .null) (Pure.pure ()) fun _ =>
        .null :: post b := .emit_pure rfl () fun m base => rfl
    refine (Runs.arm hmark (hnormal hdone) ht fun _ => rfl).arrange ?_
    refine ((hm.runs hcode hwf (ht.mono hext) hplace).frame (.null :: post b)).bind fun _ Q hQ => ?_
    rcases hend Q hQ with hresume | ⟨_, hunused, _⟩
    · exact .resume hresume hwf' ht hQ b
    · rw [hdone] at hunused
      cases hunused
  thrown {s t done noMatch} h hs hw ht x hx := by
    obtain ⟨label, s0, t0, _, _, hunwinding, hcode, hwf, hplace, hext, hwf', hend⟩ :=
      cleanupEnd_shape hm.tidy h hs hw
    have hmark : I.Realizes regions [x] (Lower.emitAll [.uninitialized, .swap]) (Pure.pure ())
        fun _ => [x, .uninitialized] := by
      refine .emitAll (by simp [Inst.isTerminator]) fun base hact hagrees => ?_
      cases hact
      exact ⟨_, _, rfl, rfl, hagrees⟩
    refine (Runs.arm hmark hunwinding ht fun _ => rfl).arrange ?_
    refine ((hm.runs hcode hwf (ht.mono hext) hplace).frame [x, .uninitialized]).bind
      fun _ Q hQ => ?_
    rcases hend Q hQ with hresume | ⟨hthrow, _⟩
    · exact .rethrow hresume hwf' ht hQ hx [.uninitialized]
    · exact .throw ht hthrow hx

/-! ## Whole handlers -/

theorem Runs.attempt {m : Lower Unit} {clauses : (done next : BlockId) → Lower BlockId}
    {last : (done noMatch : BlockId) → Lower Unit} {handle : Value → Meaning (Option β)} (hb : I.Realizes (⟨code, true⟩ :: regions) [] m act post)
    (hcode : I.Realizes regions [] (code.getD (Pure.pure ())) clean fun _ => [])
    (hr : Tidy.Cleanups regions) (hc : I.Tries (⟨code, false⟩ :: regions) clauses handle post)
    (he : I.Ends regions last clean post)
    (hgives : (Site.protect m fun exit handler => do
      let noMatch ← clauses exit handler
      last exit noMatch).Gives s () t)
    (hs : s.draft.WF) (ht : I.Installed t) (hP : s.draft.place = some P) :
    I.Runs regions P [] (act.attempt handle clean) (fun _ => t.draft.place) post := by
  obtain ⟨bodyLabel, handler, exit, s0, t0, u, hm, hwf, hplace, hext, hpush, hpop, hwf1, hw1, hrest⟩ :=
    protect_shape hb.tidy hgives hs hP
  obtain ⟨noMatch, u', h1, h2⟩ := gives_bind.mp hrest
  obtain ⟨hwf2, hext2, hw2⟩ := hc.forward h1 hwf1 hw1
  have hext3 := he.forward h2 hwf2 hw2
  -- Where those go on that complete, if there are any.
  let doneAt : Option Place := if u'.draft.isReferenced exit then some (exit, 0) else none
  have hat : u'.draft.isReferenced exit = true → doneAt = some (exit, 0) := fun href => if_pos href
  have hdone : ∀ {Q}, doneAt = some Q → Q = (exit, 0) ∧ u'.draft.isReferenced exit = true := by
    intro Q hQ
    by_cases href : u'.draft.isReferenced exit = true
    · exact ⟨by simpa [doneAt, href, eq_comm] using hQ, href⟩
    · simp [doneAt, href] at hQ
  have hbody := Runs.protect hb hcode.tidy hr (ht.mono (hext2.trans hext3)) hm hwf hplace hext hpush
    fun Q hQ => ⟨(hpop Q hQ).1, hat (hext2.referenced _ (hpop Q hQ).2)⟩
  refine (hbody.leaving hcode hr).bind fun o Q hQ => ?_
  cases o with
  | ok b =>
    obtain ⟨rfl, href⟩ := hdone hQ
    exact he.completed h2 hwf2 hw2 ht href b
  | error x =>
    obtain ⟨hx, hQ⟩ : x.isObject = true ∧ some (handler, 0) = some Q := by
      dsimp only at hQ
      split at hQ
      · exact ⟨‹_›, hQ⟩
      · cases hQ
    cases hQ
    have hclauses := hc.runs (x := x) h1 hwf1 hw1 (ht.mono hext3) hat
    refine (hclauses.leaving hcode hr).bind fun o Q hQ => ?_
    cases o with
    | some b =>
      obtain ⟨rfl, href⟩ := hdone hQ
      exact he.completed h2 hwf2 hw2 ht href b
    | none =>
      cases hQ
      exact he.thrown h2 hwf2 hw2 ht hx

end Image

end StackBackend
