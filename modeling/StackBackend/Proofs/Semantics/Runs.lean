import StackBackend.Proofs.Lowering.ControlShape
import StackBackend.Proofs.Semantics.Expressions
import StackBackend.Proofs.Semantics.Machine

/-! Code that does what a piece of a function body means. The code is followed on the
machine from the place where it begins: if the piece completes, control gets to the
place where the code ends, with its value on the stack; if it throws, to the innermost
open region; and if it returns, to the code that leaves the enclosing regions. -/

namespace StackBackend

/-! ## Meanings -/

namespace Meaning

variable {α β : Type} {m : Meaning α} {f : α → Meaning β} {σ : Source}

theorem bind_apply : (m >>= f) σ = (match m σ with
    | none => none
    | some (.ok a, σ') => f a σ'
    | some (.error x, σ') => some (.error x, σ')) := rfl

theorem bind_eq_some {r : Except Exit β × Source} :
    (m >>= f) σ = some r ↔
      (∃ a σ1, m σ = some (.ok a, σ1) ∧ f a σ1 = some r) ∨
      ∃ x σ1, m σ = some (.error x, σ1) ∧ r = (.error x, σ1) := by
  rw [bind_apply]
  rcases m σ with _ | ⟨_ | _, _⟩ <;> simp [eq_comm]

instance : LawfulMonad Meaning := by
  refine .mk' Meaning (fun m => ?_) (fun _ _ => rfl) (fun m f g => ?_) <;> funext σ
  · change (match m σ with
      | none => none
      | some (.ok a, σ') => some (.ok a, σ')
      | some (.error x, σ') => some (.error x, σ')) = m σ
    rcases m σ with _ | ⟨_ | _, _⟩ <;> rfl
  · change (match (match m σ with
        | none => none
        | some (.ok a, σ') => f a σ'
        | some (.error x, σ') => some (.error x, σ')) with
      | none => none
      | some (.ok a, σ') => g a σ'
      | some (.error x, σ') => some (.error x, σ')) = match m σ with
      | none => none
      | some (.ok a, σ') => (f a >>= g) σ'
      | some (.error x, σ') => some (.error x, σ')
    rcases m σ with _ | ⟨_ | _, _⟩ <;> rfl

theorem read_eq_some {g : Source → Option α} {o : Except Exit α} {σ' : Source} :
    read g σ = some (o, σ') ↔ σ' = σ ∧ ∃ a, g σ = some a ∧ o = .ok a := by
  unfold read
  cases g σ <;> simp [eq_comm, and_comm]

theorem write_eq_some {g : Source → Option Source} {o : Except Exit Unit} {σ' : Source} :
    write g σ = some (o, σ') ↔ g σ = some σ' ∧ o = .ok () := by
  unfold write
  cases g σ <;> simp [eq_comm, and_comm]

end Meaning

/-! ## Code on the machine -/

theorem Machine.exec_of_not_terminator {M : Machine} {i : Inst} {r : Running}
    (h : i.isTerminator = false) :
    M.exec i r = (M.effect i r.stack r.memory).map fun (stack, memory) =>
      .running { r with offset := r.offset + 1, stack, memory } := by
  cases i <;> first | rfl | cases h

/-- The memory of a function with the given slots holds what its body sees. -/
structure Memory.Shows (m : Memory) (slots : List LocalSlot) (σ : Source) : Prop where
  world : m.world = σ.world
  vars : ∀ d i, Site.slotOf? slots d = some i → m.frame i = σ.vars d

/-- The code of a function, as the machine has it and as lowering sees it. -/
structure Image where
  machine : Machine
  /-- The block that a label has become. -/
  number : BlockId → BlockId
  slots : List LocalSlot

namespace Image

variable {α β γ : Type} {I : Image} {s t : LowerState} {P Q : Place} {i : Inst}
  {r : Running} {regions : List Region} {pre base : List Value}
  {handlers : List (BlockId × Nat)} {act : Meaning β} {dest : β → Option Place}
  {post : β → List Value}

structure Installed (I : Image) (s : LowerState) : Prop where
  code : ∀ P i, s.Laid P i → (I.machine.code (I.number P.1))[P.2]? = some (i.mapTargets I.number)
  pool : s.strings.toList <+: I.machine.pool

theorem Installed.mono (h : I.Installed t) (hst : s.Extends t) : I.Installed s where
  code P i hi := h.code P i (hst.laid hi)
  pool := hst.strings.trans h.pool

def At (I : Image) (P : Place) (r : Running) : Prop := r.block = I.number P.1 ∧ r.offset = P.2

/-- The machine sees what the function body sees. -/
abbrev Agrees (I : Image) (σ : Source) (m : Memory) : Prop := m.Shows I.slots σ

theorem step_at (ht : I.Installed t) (hi : t.Laid P i) (hr : I.At P r) :
    I.machine.step r = I.machine.exec (i.mapTargets I.number) r := by
  unfold Machine.step
  rw [hr.1, hr.2, ht.code P i hi]
  rfl

/-- Control is about to leave the regions, with the value to return on the stack. -/
def Leaving (I : Image) (regions : List Region) (v : Value) (base : List Value) (r : Running) :
    Prop :=
  ∃ u w P above, (Region.leaveAll regions >>= fun _ => Lower.terminate .ret).Gives u () w ∧
    u.draft.WF ∧ I.Installed w ∧ u.draft.place = some P ∧ I.At P r ∧
    r.stack = v :: (above ++ base)

/-- Where control is after a piece of a function body has ended. -/
inductive Lands (I : Image) (regions : List Region) (dest : β → Option Place)
    (post : β → List Value) (base : List Value) (handlers : List (BlockId × Nat)) :
    Except Exit β → Source → Config → Prop where
  | completed {b : β} {σ : Source} {r : Running} {P : Place} (place : dest b = some P)
      (control : I.At P r) (stack : r.stack = post b ++ base) (handlers_eq : r.handlers = handlers)
      (agrees : I.Agrees σ r.memory) : Lands I regions dest post base handlers (.ok b) σ (.running r)
  | thrown {x : Value} {σ : Source} {m : Memory} (isObject : x.isObject = true)
      (agrees : I.Agrees σ m) :
      Lands I regions dest post base handlers (.error (.thrown x)) σ (.raise x base handlers m)
  | returned {v : Value} {σ : Source} {r : Running} (leaving : I.Leaving regions v base r)
      (handlers_eq : r.handlers = handlers) (agrees : I.Agrees σ r.memory) :
      Lands I regions dest post base handlers (.error (.returned v)) σ (.running r)

/-- From the place, with the given values on the stack, the machine does what the piece
means. -/
structure Runs (I : Image) (regions : List Region) (P : Place) (pre : List Value)
    (act : Meaning β) (dest : β → Option Place) (post : β → List Value) : Prop where
  run : ∀ {σ o σ' r base}, act σ = some (o, σ') → I.At P r → r.stack = pre ++ base →
    I.Agrees σ r.memory → (∀ h ∈ r.handlers, h.2 ≤ base.length) →
    ∃ c, I.machine.Reaches (.running r) c ∧ I.Lands regions dest post base r.handlers o σ' c

/-! ## Composition -/

theorem Lands.of_error {dest' : γ → Option Place} {post' : γ → List Value} {x : Exit}
    {σ : Source} {c : Config} (h : I.Lands regions dest post base handlers (.error x) σ c) :
    I.Lands regions dest' post' base handlers (.error x) σ c := by
  cases h with
  | thrown isObject agrees => exact .thrown isObject agrees
  | returned leaving handlers_eq agrees => exact .returned leaving handlers_eq agrees

theorem Runs.bind {f : β → Meaning γ} {dest' : γ → Option Place} {post' : γ → List Value}
    (h : I.Runs regions P pre act dest post)
    (hf : ∀ b Q, dest b = some Q → I.Runs regions Q (post b) (f b) dest' post') :
    I.Runs regions P pre (act >>= f) dest' post' := by
  refine ⟨fun hact hat hstack hagrees hheights => ?_⟩
  rcases Meaning.bind_eq_some.mp hact with ⟨b, σ1, h1, h2⟩ | ⟨x, σ1, h1, h2⟩
  · obtain ⟨c, hreach, hland⟩ := h.run h1 hat hstack hagrees hheights
    obtain ⟨place, hat1, hstack1, hhandlers, hagrees1⟩ := hland
    obtain ⟨c', hreach', hland'⟩ := (hf b _ place).run h2 hat1 hstack1 hagrees1
      (by rw [hhandlers]; exact hheights)
    rw [hhandlers] at hland'
    exact ⟨c', hreach.trans hreach', hland'⟩
  · cases h2
    obtain ⟨c, hreach, hland⟩ := h.run h1 hat hstack hagrees hheights
    exact ⟨c, hreach, hland.of_error⟩

theorem Runs.arrange {mid : List Value}
    (h : I.Runs regions P pre (Pure.pure ()) (fun _ => some Q) fun _ => mid)
    (h' : I.Runs regions Q mid act dest post) : I.Runs regions P pre act dest post :=
  h.bind fun _ _ hQ => by
    cases hQ
    exact h'

theorem cutTo_append {height : Nat} {above base : List Value} (h : height ≤ base.length) :
    cutTo height (above ++ base) = cutTo height base := by
  unfold cutTo
  rw [List.length_append, Nat.add_sub_assoc h, List.drop_append]
  simp

theorem raise_append {x : Value} {above : List Value} {m : Memory}
    (h : ∀ h ∈ handlers, h.2 ≤ base.length) :
    Config.raise x (above ++ base) handlers m = .raise x base handlers m := by
  cases handlers with
  | nil => rfl
  | cons first outer =>
    unfold Config.raise
    dsimp only
    rw [cutTo_append (h first (.head _))]

theorem Runs.frame (h : I.Runs regions P pre act dest post) (below : List Value) :
    I.Runs regions P (pre ++ below) act dest fun b => post b ++ below := by
  refine ⟨fun {σ o σ' r base} hact hat hstack hagrees hheights => ?_⟩
  rw [List.append_assoc] at hstack
  obtain ⟨c, hreach, hland⟩ := h.run hact hat hstack hagrees
    (fun h hm => (hheights h hm).trans (by simp))
  refine ⟨c, hreach, ?_⟩
  cases hland with
  | completed place control stack handlers_eq agrees =>
    exact .completed place control (by rw [stack, List.append_assoc]) handlers_eq agrees
  | thrown isObject agrees =>
    rw [raise_append hheights]
    exact .thrown isObject agrees
  | returned leaving handlers_eq agrees =>
    obtain ⟨u, w, P, above, hgives, hwf, hw, hP, hat, hstack⟩ := leaving
    refine .returned ⟨u, w, P, above ++ below, hgives, hwf, hw, hP, hat, ?_⟩ handlers_eq agrees
    rw [hstack, List.append_assoc]

theorem Runs.pure (b : β) (h : dest b = some P) (hpre : pre = post b) :
    I.Runs regions P pre (pure b) dest post := by
  refine ⟨fun hact hat hstack hagrees hheights => ?_⟩
  cases hact
  exact ⟨_, .refl _, .completed h hat (by rw [hstack, hpre]) rfl hagrees⟩

theorem Runs.stuck : I.Runs regions P pre (Meaning.stuck : Meaning β) dest post :=
  ⟨fun hact => nomatch hact⟩

theorem Runs.of_effect (ht : I.Installed t) (hi : t.Laid P i) (hterm : i.isTerminator = false)
    (h : ∀ {σ o σ' m} base, act σ = some (o, σ') → I.Agrees σ m → ∃ b m', o = .ok b ∧
      I.machine.effect i (pre ++ base) m = some (post b ++ base, m') ∧ I.Agrees σ' m') :
    I.Runs regions P pre act (fun _ => some (P.1, P.2 + 1)) post := by
  refine ⟨fun {σ o σ' r base} hact hat hstack hagrees hheights => ?_⟩
  obtain ⟨b, m', rfl, heffect, hagrees'⟩ := h base hact hagrees
  have hstep : I.machine.step r = some (.running
      { r with offset := r.offset + 1, stack := post b ++ base, memory := m' }) := by
    rw [step_at ht hi hat, Inst.mapTargets_of_not_terminator hterm,
      Machine.exec_of_not_terminator hterm, hstack, heffect]
    rfl
  exact ⟨_, .step hstep (.refl _), .completed rfl ⟨hat.1, by rw [hat.2]⟩ rfl rfl hagrees'⟩

/-! ## Jumps -/

/-- One step takes control from one place to another and changes nothing but the top of
the stack. -/
def Jumps (I : Image) (P : Place) (pre : List Value) (Q : Place) (post : List Value) : Prop :=
  ∀ {r base}, I.At P r → r.stack = pre ++ base → ∃ r', I.machine.step r = some (.running r') ∧
    I.At Q r' ∧ r'.stack = post ++ base ∧ r'.handlers = r.handlers ∧ r'.memory = r.memory

theorem jumps_branch {b : BlockId} (ht : I.Installed t) (hi : t.Laid P (.branch b)) :
    I.Jumps P pre (b, 0) pre := by
  intro r base hat hstack
  refine ⟨{ r with block := I.number b, offset := 0 }, ?_, ⟨rfl, rfl⟩, hstack, rfl, rfl⟩
  rw [step_at ht hi hat]
  rfl

theorem jumps_branchIf {a b : BlockId} {c : Bool} (pre : List Value) (ht : I.Installed t)
    (hi : t.Laid P (.branchIf a b)) :
    I.Jumps P (.boolean c :: pre) (if c then a else b, 0) pre := by
  intro r base hat hstack
  refine ⟨{ r with block := I.number (if c then a else b), offset := 0, stack := pre ++ base },
    ?_, ⟨rfl, rfl⟩, rfl, rfl, rfl⟩
  rw [step_at ht hi hat]
  unfold Machine.exec
  rw [hstack]
  cases c <;> rfl

theorem Runs.after {pre' : List Value} (hj : I.Jumps P pre Q pre')
    (h : I.Runs regions Q pre' act dest post) : I.Runs regions P pre act dest post := by
  refine ⟨fun hact hat hstack hagrees hheights => ?_⟩
  obtain ⟨r', hstep, hat', hstack', hhandlers, hmemory⟩ := hj hat hstack
  obtain ⟨c, hreach, hland⟩ := h.run hact hat' hstack' (by rw [hmemory]; exact hagrees)
    (by rw [hhandlers]; exact hheights)
  rw [hhandlers] at hland
  exact ⟨c, .step hstep hreach, hland⟩

theorem Runs.before {dest' : β → Option Place} {post' : β → List Value}
    (h : I.Runs regions P pre act dest post)
    (hj : ∀ b Q, dest b = some Q → ∃ Q', dest' b = some Q' ∧ I.Jumps Q (post b) Q' (post' b)) :
    I.Runs regions P pre act dest' post' := by
  refine ⟨fun hact hat hstack hagrees hheights => ?_⟩
  obtain ⟨c, hreach, hland⟩ := h.run hact hat hstack hagrees hheights
  cases hland with
  | completed place control stack handlers_eq agrees =>
    obtain ⟨Q', hQ', hjump⟩ := hj _ _ place
    obtain ⟨r', hstep, hat', hstack', hhandlers, hmemory⟩ := hjump control stack
    exact ⟨_, hreach.trans (.step hstep (.refl _)), .completed hQ' hat' hstack'
      (hhandlers.trans handlers_eq) (by rw [hmemory]; exact agrees)⟩
  | thrown isObject agrees => exact ⟨_, hreach, .thrown isObject agrees⟩
  | returned leaving handlers_eq agrees => exact ⟨_, hreach, .returned leaving handlers_eq agrees⟩

theorem Runs.throw {x : Value} {above : List Value} (ht : I.Installed t) (hi : t.Laid P .throw)
    (hx : x.isObject = true) :
    I.Runs regions P (x :: above) (Meaning.exit (.thrown x)) dest post := by
  refine ⟨fun {σ o σ' r base} hact hat hstack hagrees hheights => ?_⟩
  cases hact
  have hstep : I.machine.step r = some (.raise x base r.handlers r.memory) := by
    rw [step_at ht hi hat, ← raise_append hheights]
    change I.machine.exec .throw r = _
    unfold Machine.exec
    rw [hstack]
    rfl
  exact ⟨_, .step hstep (.refl _), .thrown hx hagrees⟩

end Image

end StackBackend
