import StackBackend.Proofs.Semantics.Runs

/-! Straight code. An operator instruction computes the operator it was selected for,
and the code of a variable, a field or a coercion does what they mean. -/

namespace StackBackend

open Lower
open LowerState.Forward (of_emit of_emitAll)

variable {op : BinaryOp} {ty : Ty} {n : Numeric} {v : Value} {is : List Inst}

/-! ## Operators -/

namespace BinaryOp

@[simp] theorem binary?_intOp (op : BinaryOp) : op.intOp.binary? = some op := by
  cases op <;> rfl

theorem binary?_of_floatOp? {f : FloatOp} (h : op.floatOp? = some f) : f.binary? = some op := by
  cases op <;> cases h <;> rfl

end BinaryOp

theorem Ty.isObject_of_numeric? (h : ty.numeric? = some n) : ty.isObject = false := by
  cases ty <;> first | rfl | cases h

theorem Value.numeric?_of_hasTy (h : ty.numeric? = some n)
    (hv : v.hasTy ty = true) : v.numeric? = some n := by
  cases ty <;> cases h <;> cases v <;> first | rfl | cases hv

def Ty.isByte : Ty → Bool
  | .boolean | .unit => true
  | _ => false

theorem Value.numeric?_of_isByte (h : ty.isByte = true)
    (hv : v.hasTy ty = true) : v.numeric? = some (.int .i8) := by
  cases ty <;> cases h <;> cases v <;> first | rfl | cases hv

theorem BinaryOp.otherInst?_cases {i : Inst} (h : op.otherInst? ty = some i) :
    ty.isByte = true ∧ ty.isObject = false ∧ i = .int op.intOp .i8 ∨
    ty.isObject = true ∧ (op = .eq ∧ i = .sameObject ∨ op = .ne ∧ i = .notSameObject) := by
  unfold otherInst? at h
  split at h <;>
    first
    | (cases h; exact .inl ⟨rfl, rfl, rfl⟩)
    | (split at h <;> cases h; rename_i hty; exact .inr ⟨hty, by simp⟩)
    | cases h

namespace Host

variable {host : Host} {a b : Value} {base : List Value}

theorem applyBinary_of_not_isObject (hty : ty.isObject = false)
    (h : host.applyBinary op ty a b = some v) :
    a.hasTy ty = true ∧ b.hasTy ty = true ∧ host.binary op a b = some v := by
  unfold applyBinary at h
  rw [hty] at h
  simp only [Bool.false_eq_true, if_false] at h
  split at h <;> rename_i hab
  · rw [Bool.and_eq_true] at hab
    exact ⟨hab.1, hab.2, h⟩
  · cases h

theorem operate_binary (ha : a.numeric? = some n) (hb : b.numeric? = some n)
    {unary : Option UnaryOp} (h : host.binary op a b = some v) :
    host.operate n (some op) unary (b :: a :: base) = some (v :: base) := by
  simp [operate, ha, hb, h]

end Host

namespace Machine

variable {M : Machine} {i : Inst} {a b : Value} {base : List Value} {m : Memory}

theorem effect_binary (hi : op.inst? ty = some i) (h : M.host.applyBinary op ty a b = some v) :
    M.effect i (b :: a :: base) m = some (v :: base, m) := by
  unfold BinaryOp.inst? at hi
  split at hi
  · rename_i w hty
    cases hi
    obtain ⟨ha, hb, h⟩ := Host.applyBinary_of_not_isObject (Ty.isObject_of_numeric? hty) h
    simp only [effect_int, BinaryOp.binary?_intOp]
    rw [Host.operate_binary (Value.numeric?_of_hasTy hty ha) (Value.numeric?_of_hasTy hty hb) h]
    rfl
  · rename_i w hty
    obtain ⟨f, hf, rfl⟩ := Option.map_eq_some_iff.mp hi
    obtain ⟨ha, hb, h⟩ := Host.applyBinary_of_not_isObject (Ty.isObject_of_numeric? hty) h
    simp only [effect_float, BinaryOp.binary?_of_floatOp? hf]
    rw [Host.operate_binary (Value.numeric?_of_hasTy hty ha) (Value.numeric?_of_hasTy hty hb) h]
    rfl
  · rcases BinaryOp.otherInst?_cases hi with ⟨hbyte, hobject, rfl⟩ | ⟨hobject, hi⟩
    · obtain ⟨ha, hb, h⟩ := Host.applyBinary_of_not_isObject hobject h
      simp only [effect_int, BinaryOp.binary?_intOp]
      rw [Host.operate_binary (Value.numeric?_of_isByte hbyte ha)
        (Value.numeric?_of_isByte hbyte hb) h]
      rfl
    · unfold Host.applyBinary at h
      rw [if_pos hobject] at h
      split at h <;> rename_i hab
      · rcases hi with ⟨rfl, rfl⟩ | ⟨rfl, rfl⟩ <;> cases h <;>
          simp only [effect_sameObject, effect_notSameObject, if_pos hab]
      · cases h

theorem effect_notBool (ha : a.hasTy .boolean = true) (h : M.host.unary .not a = some v) :
    M.effect .notBool (a :: base) m = some (v :: base, m) := by
  obtain ⟨b, rfl⟩ : ∃ b, a = .boolean b := by
    cases a <;> first | exact ⟨_, rfl⟩ | cases ha
  simp [effect_notBoolean, h]

theorem effect_unary {op : UnaryOp} (hi : op.inst? ty = some i)
    (h : M.host.applyUnary op ty a = some v) : M.effect i (a :: base) m = some (v :: base, m) := by
  unfold Host.applyUnary at h
  split at h <;> rename_i ha
  swap
  · cases h
  unfold UnaryOp.inst? at hi
  split at hi
  · rename_i w hty
    cases hi
    simp [effect_int, Host.operate, IntOp.binary?, IntOp.unary?, Value.numeric?_of_hasTy hty ha, h]
  · rename_i w hty
    cases hi
    simp [effect_float, Host.operate, FloatOp.binary?, FloatOp.unary?, Value.numeric?_of_hasTy hty ha, h]
  · rename_i w hty
    cases hi
    have hne : ty ≠ .boolean := by rintro rfl; cases hty
    have h : M.host.unary .bitNot a = some v := by
      split at h
      · exact absurd rfl hne
      · exact h
    simp [effect_int, Host.operate, IntOp.binary?, IntOp.unary?, Value.numeric?_of_hasTy hty ha, h]
  -- Only booleans are left, and for them both negations are one.
  · split at hi <;> cases hi
    subst ty
    exact effect_notBool ha h
  · split at hi <;> cases hi
    subst ty
    exact effect_notBool ha h
  · cases hi

end Machine

def Machine.effects (M : Machine) : List Inst → List Value → Memory → Option (List Value × Memory)
  | [], stack, m => some (stack, m)
  | i :: rest, stack, m => (M.effect i stack m).bind fun (stack, m) => M.effects rest stack m

/-! ## Code for what a piece means -/

def Mode.leaves : Mode → Value → List Value
  | .value, v => [v]
  | .effect, _ => []

namespace Image

variable {α β γ : Type} {I : Image} {s t : LowerState} {P : Place} {i : Inst}
  {regions : List Region} {pre : List Value} {m m' : Lower Unit} {act : Meaning β}
  {post : β → List Value}

/-- Wherever the code is put, it does what the piece means. -/
structure Realizes (I : Image) (regions : List Region) (pre : List Value) (m : Lower Unit)
    (act : Meaning β) (post : β → List Value) : Prop where
  tidy : Tidy m
  runs : ∀ {s t P}, m.Gives s () t → s.draft.WF → I.Installed t → s.draft.place = some P →
    I.Runs regions P pre act (fun _ => t.draft.place) post

theorem reaches_effects (hi : ∀ i ∈ is, i.isTerminator = false) :
    ∀ {s P r stack memory}, (Lower.emitAll is).Gives s () t → s.draft.WF → I.Installed t →
      s.draft.place = some P → I.At P r →
      I.machine.effects is r.stack r.memory = some (stack, memory) →
      I.machine.Reaches (.running r)
        (.running { r with offset := r.offset + is.length, stack, memory }) := by
  induction is with
  | nil =>
    intro s P r stack memory _ _ _ _ _ heffects
    cases heffects
    exact .refl _
  | cons i rest ih =>
    intro s P r stack memory hgives hs ht hP hat heffects
    obtain ⟨_, u, h1, h2⟩ := gives_bind.mp
      (show (Lower.emit i >>= fun _ => Lower.emitAll rest).Gives s () t from hgives)
    have hterm := hi i (.head _)
    have hrest := fun j hj => hi j (List.mem_cons_of_mem i hj)
    obtain ⟨f1, hlaid, hplace⟩ := of_emit h1 hs hterm hP
    have f2 := (Tidy.emitAll hrest).forward h2 f1.wf
    obtain ⟨⟨stack1, memory1⟩, heffect, heffects⟩ := Option.bind_eq_some_iff.mp heffects
    have hstep : I.machine.step r = some (.running
        { r with offset := r.offset + 1, stack := stack1, memory := memory1 }) := by
      rw [step_at ht (f2.extended.laid hlaid) hat, Inst.mapTargets_of_not_terminator hterm,
        Machine.exec_of_not_terminator hterm, heffect]
      rfl
    refine .step hstep ?_
    have := ih hrest h2 f1.wf ht hplace
      (r := { r with offset := r.offset + 1, stack := stack1, memory := memory1 })
      ⟨hat.1, by rw [hat.2]⟩ heffects
    simpa [Nat.add_assoc, Nat.add_comm 1] using this

namespace Realizes

theorem pure (b : β) (hpre : pre = post b) : I.Realizes regions pre (pure ()) (pure b) post := by
  refine ⟨.pure (), fun h _ _ hP => ?_⟩
  obtain ⟨_, rfl⟩ := gives_pure.mp h
  exact .pure b hP hpre

theorem stuck (hm : Tidy m) : I.Realizes regions pre m (Meaning.stuck : Meaning β) post :=
  ⟨hm, fun _ _ _ _ => .stuck⟩

theorem bind [Inhabited β] {f : β → Meaning γ} {post' : γ → List Value}
    (h : I.Realizes regions pre m act post)
    (h' : ∀ b, I.Realizes regions (post b) m' (f b) post') :
    I.Realizes regions pre (m >>= fun _ => m') (act >>= f) post' := by
  refine ⟨.bind h.tidy fun _ => (h' default).tidy, fun hgives hs ht hP => ?_⟩
  obtain ⟨_, u, h1, h2⟩ := gives_bind.mp hgives
  have f1 := h.tidy.forward h1 hs
  have f2 := (h' default).tidy.forward h2 f1.wf
  refine (h.runs h1 hs (ht.mono f2.extended) hP).bind fun b Q hQ => ?_
  exact (h' b).runs h2 f1.wf ht hQ

theorem arrange {mid : List Value} (h : I.Realizes regions pre m (Pure.pure ()) fun _ => mid)
    (h' : I.Realizes regions mid m' act post) :
    I.Realizes regions pre (m >>= fun _ => m') act post :=
  h.bind fun _ => h'

theorem frame (h : I.Realizes regions pre m act post) (below : List Value) :
    I.Realizes regions (pre ++ below) m act fun b => post b ++ below :=
  ⟨h.tidy, fun hgives hs ht hP => (h.runs hgives hs ht hP).frame below⟩

theorem yield {post' : γ → List Value} (h : I.Realizes regions pre m act post) (f : β → γ)
    (hpost : ∀ b, post b = post' (f b)) :
    I.Realizes regions pre m (act >>= fun b => Pure.pure (f b)) post' :=
  ⟨h.tidy, fun hgives hs ht hP =>
    (h.runs hgives hs ht hP).bind fun b _ hQ => .pure (f b) hQ (hpost b)⟩

theorem ask {x : Lower α} {f : α → Lower Unit} (hx : Emits (fun _ => True) x)
    (hquiet : ∀ {s a t}, x.Gives s a t → t = s)
    (h : ∀ {s a}, x.Gives s a s → I.Realizes regions pre (f a) act post) :
    I.Realizes regions pre (x >>= f) act post := by
  refine ⟨.bind_of (.of_quiet hx hquiet) fun a s t ha => ?_, fun hgives hs ht hP => ?_⟩
  · obtain rfl := hquiet ha
    exact (h ha).tidy
  · obtain ⟨a, u, h1, h2⟩ := gives_bind.mp hgives
    obtain rfl := hquiet h1
    exact (h h1).runs h2 hs ht hP

theorem lift {x : Checked α} {f : α → Lower Unit} (hx : x.Clean)
    (h : ∀ a, x = .ok a → I.Realizes regions pre (f a) act post) :
    I.Realizes regions pre ((liftM x : Lower α) >>= f) act post :=
  ask (.lift hx) (fun ha => (gives_lift.mp ha).2) fun ha => h _ (gives_lift.mp ha).1

theorem orFail {site : Site} {x : Option α} {cause : LoweringCause} {f : α → Lower Unit}
    (h : ∀ a, x = some a → I.Realizes regions pre (f a) act post) :
    I.Realizes regions pre (site.orFail x cause >>= f) act post :=
  ask (.orFail site x cause) (fun ha => (Site.gives_orFail.mp ha).2) fun ha =>
    h _ (Site.gives_orFail.mp ha).1

theorem fail (site : Site) (cause : LoweringCause) :
    I.Realizes regions pre (site.fail cause) act post :=
  ⟨⟨.stop _, .stop rfl⟩, fun h => (Site.not_gives_fail h).elim⟩

theorem emit (hi : i.isTerminator = false)
    (h : ∀ {σ o σ' m} base, act σ = some (o, σ') → I.Agrees σ m → ∃ b m', o = .ok b ∧
      I.machine.effect i (pre ++ base) m = some (post b ++ base, m') ∧ I.Agrees σ' m') :
    I.Realizes regions pre (Lower.emit i) act post := by
  refine ⟨.emit hi, fun hgives hs ht hP => ?_⟩
  obtain ⟨_, hlaid, hplace⟩ := of_emit hgives hs hi hP
  rw [hplace]
  exact .of_effect ht hlaid hi h

theorem emitAll (hi : ∀ i ∈ is, i.isTerminator = false)
    (h : ∀ {σ o σ' m} base, act σ = some (o, σ') → I.Agrees σ m → ∃ b m', o = .ok b ∧
      I.machine.effects is (pre ++ base) m = some (post b ++ base, m') ∧ I.Agrees σ' m') :
    I.Realizes regions pre (Lower.emitAll is) act post := by
  refine ⟨.emitAll hi, fun hgives hs ht hP => ⟨fun {σ o σ' r base} hact hat hstack hagrees _ => ?_⟩⟩
  obtain ⟨b, m', rfl, heffects, hagrees'⟩ := h base hact hagrees
  rw [← hstack] at heffects
  refine ⟨_, reaches_effects hi hgives hs ht hP hat heffects, ?_⟩
  refine .completed (of_emitAll hi hgives hs hP).2 ⟨hat.1, ?_⟩ rfl rfl hagrees'
  rw [hat.2]

theorem emit_pure (hi : i.isTerminator = false) (b : β)
    (h : ∀ m base, I.machine.effect i (pre ++ base) m = some (post b ++ base, m)) :
    I.Realizes regions pre (Lower.emit i) (Pure.pure b) post := by
  refine emit hi fun base hact hagrees => ?_
  cases hact
  exact ⟨b, _, rfl, h _ base, hagrees⟩

theorem discard (mode : Mode) (v : Value) :
    I.Realizes regions [v] (Lower.discard mode) (Pure.pure v) mode.leaves := by
  cases mode with
  | value => exact pure v rfl
  | effect => exact emit_pure rfl v fun m base => rfl

theorem dup (v : Value) : I.Realizes regions [v] (Lower.emit .dup) (Pure.pure ()) fun _ => [v, v] :=
  emit_pure rfl () fun _ _ => rfl

theorem dupIfValue (mode : Mode) (v : Value) :
    I.Realizes regions [v] (Lower.dupIfValue mode) (Pure.pure ()) fun _ => [v] ++ mode.leaves v := by
  cases mode with
  | value => exact dup v
  | effect => exact pure () rfl

theorem unitIfValue (mode : Mode) :
    I.Realizes regions [] (Lower.unitIfValue mode) (Pure.pure Value.unit) mode.leaves := by
  cases mode with
  | value => exact emit_pure rfl Value.unit fun m base => rfl
  | effect => exact pure Value.unit rfl

/-! ## Literals -/

theorem emitString (text : String) :
    I.Realizes regions [] (Lower.emitString text) (Pure.pure (Value.string text)) fun v => [v] := by
  refine ⟨⟨Neat.composes.emitString text (x := ()), .emitString text⟩, fun {s t P} h hs ht hP => ?_⟩
  simp only [Lower.emitString, gives_bind, gives_isReachable] at h
  obtain ⟨_, s, ⟨rfl, rfl⟩, h⟩ := h
  have hreach : s.draft.isReachable = true := by
    rw [Draft.isReachable, (Draft.place_eq_some.mp hP).1]; rfl
  rw [if_pos hreach] at h
  obtain ⟨i, u, hintern, h⟩ := gives_bind.mp h
  cases hintern
  obtain ⟨_, hlaid, hplace⟩ := of_emit h hs rfl hP
  have hstring : I.machine.pool[(intern s.strings text).1]? = some text := by
    have hpool := ht.pool
    rw [gives_emit.mp h] at hpool
    exact Emits.getElem?_of_prefix hpool (Emits.intern_spec s.strings text).2
  rw [hplace]
  refine .of_effect ht hlaid rfl fun base hact hagrees => ?_
  cases hact
  refine ⟨_, _, rfl, ?_, hagrees⟩
  simp [Machine.effect_string, hstring]

theorem literal (value : Literal) :
    I.Realizes regions [] (Site.literal value) (Pure.pure (Value.ofLiteral value)) fun v => [v] := by
  cases value with
  | string text => exact emitString text
  | boolean b => cases b <;> exact emit_pure rfl _ fun m base => rfl
  | _ => exact emit_pure rfl _ fun m base => rfl

end Realizes

end Image

end StackBackend
