import StackBackend.Proofs.Semantics.FunctionRuns

/-! What a cleanup passes on. After the cleanup the top of the stack tells its two exits apart. An
exception is thrown on unless it is `null`, which is taken for the mark of the normal exit. Only
the instructions that route control around the cleanup are followed here; all others, calls among
them, may do anything. -/

namespace StackBackend

open Lower
open LowerState.Forward (of_emitAll of_emit)

variable {x : Value} {handlers : List (BlockId × Nat)} {base below : List Value} {s : LowerState}
  {others : Running → Config → Prop}

/-- Instructions that lead control into a cleanup and away from it. -/
def Inst.isRouting : Inst → Bool
  | .dup | .drop | .swap | .null | .uninitialized | .sameObject | .branch _ | .branchIf ..
  | .throw => Bool.true
  | _ => Bool.false

namespace Machine

/-- A step of a machine on which every instruction that does not route control does what
`others` says. -/
def StepWith (M : Machine) (others : Running → Config → Prop) (r : Running) (c : Config) : Prop :=
  ∃ i, (M.code r.block)[r.offset]? = some i ∧
    if i.isRouting then M.exec i r = some c else others r c

/-- Whatever the machine does, it gets to `goal`, and not by way of `avoid`. -/
inductive Inevitably (M : Machine) (others : Running → Config → Prop) (avoid goal : Running → Prop) :
    Running → Prop where
  | now {r : Running} (h : goal r) : Inevitably M others avoid goal r
  | later {r : Running} (passed : ¬ avoid r) (moves : ∃ r', M.StepWith others r (.running r'))
      (runs : ∀ c, M.StepWith others r c → ∃ r', c = .running r')
      (next : ∀ r', M.StepWith others r (.running r') → Inevitably M others avoid goal r') :
      Inevitably M others avoid goal r

/-- Control is at a `throw` of the value, inside the given regions. -/
structure Throws (M : Machine) (x : Value) (handlers : List (BlockId × Nat)) (r : Running) :
    Prop where
  code : (M.code r.block)[r.offset]? = some .throw
  top : r.stack.head? = some x
  handlers_eq : r.handlers = handlers

/-- Control takes a way through the routing instructions on which nothing else can
happen. -/
inductive Routes (M : Machine) (avoid : Running → Prop) : Running → Running → Prop where
  | refl (r : Running) : Routes M avoid r r
  | step {r r1 r2 : Running} {i : Inst} (code : (M.code r.block)[r.offset]? = some i)
      (routing : i.isRouting = true) (quiet : i ≠ .throw) (passed : ¬ avoid r)
      (exec : M.exec i r = some (.running r1)) (rest : Routes M avoid r1 r2) : Routes M avoid r r2

variable {M : Machine} {avoid goal : Running → Prop}
  {r r' r'' : Running} {i : Inst}

theorem stepWith_iff (hi : (M.code r.block)[r.offset]? = some i) (hrouting : i.isRouting = true)
    {c : Config} : M.StepWith others r c ↔ M.exec i r = some c := by
  unfold StepWith
  rw [hi]
  constructor
  · rintro ⟨j, hj, h⟩
    cases hj
    rwa [if_pos hrouting] at h
  · exact fun h => ⟨i, rfl, by rwa [if_pos hrouting]⟩

theorem Routes.trans (h : M.Routes avoid r r') (h' : M.Routes avoid r' r'') :
    M.Routes avoid r r'' := by
  induction h with
  | refl => exact h'
  | step code routing quiet passed exec _ ih => exact .step code routing quiet passed exec (ih h')

theorem Routes.mono {avoid' : Running → Prop} (h : M.Routes avoid r r')
    (himp : ∀ r, avoid' r → avoid r) : M.Routes avoid' r r' := by
  induction h with
  | refl => exact .refl _
  | step code routing quiet passed exec _ ih =>
    exact .step code routing quiet (fun h => passed (himp _ h)) exec ih

theorem Routes.inevitably (h : M.Routes avoid r r') (hgoal : M.Inevitably others avoid goal r') :
    M.Inevitably others avoid goal r := by
  induction h with
  | refl => exact hgoal
  | @step r r1 r2 i code routing quiet passed exec rest ih =>
    refine .later passed ⟨r1, (stepWith_iff code routing).mpr exec⟩ (fun c hc => ?_) fun r' hr' => ?_
    · rw [stepWith_iff code routing, exec] at hc
      exact ⟨r1, (Option.some.inj hc).symm⟩
    · rw [stepWith_iff code routing, exec] at hr'
      cases hr'
      exact ih hgoal

theorem Routes.throws_later (h : M.Routes avoid r r')
    (hgoal : M.Inevitably others avoid (M.Throws x handlers) r) :
    M.Inevitably others avoid (M.Throws x handlers) r' := by
  induction h with
  | refl => exact hgoal
  | step code routing quiet passed exec rest ih =>
    apply ih
    cases hgoal with
    | now hthrows => exact (quiet (Option.some.inj (code.symm.trans hthrows.code))).elim
    | later _ _ _ next => exact next _ ((stepWith_iff code routing).mpr exec)

theorem not_inevitably_of_stuck (hi : (M.code r.block)[r.offset]? = some i)
    (hrouting : i.isRouting = true) (hquiet : i ≠ .throw)
    (hexec : M.exec i r = none) : ¬ M.Inevitably others avoid (M.Throws x handlers) r := by
  intro h
  cases h with
  | now hthrows => exact hquiet (Option.some.inj (hi.symm.trans hthrows.code))
  | later _ moves _ _ =>
    obtain ⟨r', hr'⟩ := moves
    rw [stepWith_iff hi hrouting, hexec] at hr'
    cases hr'

end Machine

/-! ## Places -/

namespace LowerState

theorem not_laid_place {t : LowerState} {P : Place} {i : Inst} (hP : t.draft.place = some P) :
    ¬ t.Laid P i := by
  intro hi
  obtain ⟨_, hlen⟩ := Draft.place_eq_some.mp hP
  have := (List.getElem?_eq_some_iff.mp hi).1
  omega

end LowerState

namespace Image

variable {I : Image} {t : LowerState} {P E : Place} {i : Inst} {r : Running}

/-- Labels that have code become different blocks. -/
def Separates (I : Image) (t : LowerState) : Prop :=
  ∀ l l', t.draft.isStarted l = true → t.draft.isStarted l' = true → I.number l = I.number l' → l = l'

def AtEnd (I : Image) (t : LowerState) (r : Running) : Prop :=
  ∃ E, t.draft.place = some E ∧ I.At E r

theorem code_at (ht : I.Installed t) (hi : t.Laid P i) (hat : I.At P r) :
    (I.machine.code r.block)[r.offset]? = some (i.mapTargets I.number) := by
  rw [hat.1, hat.2]
  exact ht.code P i hi

theorem not_atEnd (hwf : t.draft.WF) (hsep : I.Separates t) (hi : t.Laid P i) (hat : I.At P r) :
    ¬ I.AtEnd t r := by
  rintro ⟨E, hE, hatE⟩
  have hstarted : t.draft.isStarted P.1 = true := by
    by_contra hn
    have hcode := hwf.code_of_not_started P.1 (by simpa using hn)
    unfold LowerState.Laid at hi
    rw [hcode] at hi
    cases hi
  have hlabel : P.1 = E.1 := hsep _ _ hstarted
    (hwf.current_started _ (Draft.place_eq_some.mp hE).1) (hat.1.symm.trans hatE.1)
  have hPE : P = E := Prod.ext hlabel (hat.2.symm.trans hatE.2)
  exact LowerState.not_laid_place hE (hPE ▸ hi)

/-! ## Ways through the code -/

section Routes

variable (ht : I.Installed t) (hwf : t.draft.WF) (hsep : I.Separates t)
include ht hwf hsep

theorem routes_emitAll {is : List Inst}
    (hi : ∀ i ∈ is, i.isTerminator = false ∧ i.isRouting = true) :
    ∀ {s u P r stack memory}, (Lower.emitAll is).Gives s () u → s.draft.WF → u.Extends t →
      s.draft.place = some P → I.At P r →
      I.machine.effects is r.stack r.memory = some (stack, memory) →
      I.machine.Routes (I.AtEnd t) r { r with offset := r.offset + is.length, stack, memory } := by
  induction is with
  | nil =>
    intro s u P r stack memory _ _ _ _ _ heffects
    cases heffects
    exact .refl _
  | cons i rest ih =>
    intro s u P r stack memory hgives hs hut hP hat heffects
    obtain ⟨_, s1, h1, h2⟩ := gives_bind.mp
      (show (Lower.emit i >>= fun _ => Lower.emitAll rest).Gives s () u from hgives)
    obtain ⟨hterm, hrouting⟩ := hi i (.head _)
    have hrest := fun j hj => hi j (List.mem_cons_of_mem i hj)
    obtain ⟨f1, hlaid, hplace⟩ := of_emit h1 hs hterm hP
    have f2 := (Tidy.emitAll fun j hj => (hrest j hj).1).forward h2 f1.wf
    have hlaid := (f2.extended.trans hut).laid hlaid
    obtain ⟨⟨stack1, memory1⟩, heffect, heffects⟩ := Option.bind_eq_some_iff.mp heffects
    have hcode := code_at ht hlaid hat
    rw [Inst.mapTargets_of_not_terminator hterm] at hcode
    have hexec : I.machine.exec i r = some (.running
        { r with offset := r.offset + 1, stack := stack1, memory := memory1 }) := by
      rw [Machine.exec_of_not_terminator hterm, heffect]
      rfl
    have hquiet : i ≠ .throw := by
      rintro rfl
      cases hterm
    refine .step hcode hrouting hquiet (not_atEnd hwf hsep hlaid hat) hexec ?_
    have := ih hrest h2 f1.wf hut hplace
      (r := { r with offset := r.offset + 1, stack := stack1, memory := memory1 })
      ⟨hat.1, by rw [hat.2]⟩ heffects
    simpa [Nat.add_assoc, Nat.add_comm 1] using this

theorem routes_branch {b : BlockId} (hi : t.Laid P (.branch b)) (hat : I.At P r) :
    I.machine.Routes (I.AtEnd t) r { r with block := I.number b, offset := 0 } :=
  .step (code_at ht hi hat) rfl nofun (not_atEnd hwf hsep hi hat) rfl (.refl _)

theorem routes_branchIf {a b : BlockId} {c : Bool} {rest : List Value}
    (hi : t.Laid P (.branchIf a b)) (hat : I.At P r) (hstack : r.stack = .boolean c :: rest) :
    I.machine.Routes (I.AtEnd t) r
      { r with block := I.number (if c then a else b), offset := 0, stack := rest } := by
  refine .step (code_at ht hi hat) rfl nofun (not_atEnd hwf hsep hi hat) ?_ (.refl _)
  change I.machine.exec (.branchIf (I.number a) (I.number b)) r = _
  unfold Machine.exec
  rw [hstack]
  cases c <;> rfl

theorem routes_unwinding {unwinding label : BlockId}
    (harm : Arm (Lower.emitAll [.uninitialized, .swap]) unwinding label t)
    (hat : I.At (unwinding, 0) r) (hstack : r.stack = x :: base) :
    I.machine.Routes (I.AtEnd t) r
      { r with block := I.number label, offset := 0, stack := x :: .uninitialized :: base } := by
  obtain ⟨s0, t0, hemit, hs0, hplace, hext, hend⟩ := harm
  have hplace0 := (of_emitAll (by simp [Inst.isTerminator]) hemit hs0 hplace).2
  obtain ⟨hbranch, _⟩ := hend _ hplace0
  have heffects : I.machine.effects [.uninitialized, .swap] r.stack r.memory
      = some (x :: .uninitialized :: base, r.memory) := by
    rw [hstack]
    rfl
  have hmark := routes_emitAll ht hwf hsep (by simp [Inst.isTerminator, Inst.isRouting]) hemit hs0
    hext hplace hat heffects
  exact hmark.trans (routes_branch ht hwf hsep hbranch ⟨hat.1, by simp [hat.2]⟩)

theorem routes_resumeOrRethrow (h : Site.resumeOrRethrow.Gives s () t) (hs : s.draft.WF)
    (hP : s.draft.place = some P)
    (hat : I.At P r) (hstack : r.stack = x :: below) (hx : x.isReference = true) :
    ∃ resume rethrow, t.Laid (resume, 0) .drop ∧ t.Laid (rethrow, 0) .throw ∧
      t.draft.place = some (resume, 1) ∧
      I.machine.Routes (I.AtEnd t) r
        { r with block := I.number (if x = .null then resume else rethrow), offset := 0 } := by
  obtain ⟨s0, t0, Q, resume, rethrow, htest, hwf0, hP0, hQ, hext, hbranch, hdrop, hthrow, hplace⟩ :=
    resumeOrRethrow_shape h hs hP
  refine ⟨resume, rethrow, hdrop, hthrow, hplace, ?_⟩
  have heffects : I.machine.effects [.dup, .null, .sameObject] r.stack r.memory
      = some (.boolean (x = .null) :: x :: below, r.memory) := by
    simp [hstack, Machine.effects, Machine.effect_dup, Machine.effect_null,
      Machine.effect_sameObject, hx, show Value.null.isReference = true from rfl]
  have hcompare := routes_emitAll ht hwf hsep (by simp [Inst.isTerminator, Inst.isRouting]) htest
    hwf0 hext hP0 hat heffects
  have hQ' := (of_emitAll (by simp [Inst.isTerminator]) htest hwf0 hP0).2
  obtain rfl : Q = _ := Option.some.inj (hQ.symm.trans hQ')
  have hjump := routes_branchIf ht hwf hsep hbranch
    (r := { r with offset := r.offset + 3, stack := .boolean (x = .null) :: x :: below })
    ⟨hat.1, by rw [hat.2]; rfl⟩ rfl
  have hway := hcompare.trans hjump
  simpa [hstack] using hway

theorem not_throws_of_not_isReference (h : Site.resumeOrRethrow.Gives s () t) (hs : s.draft.WF)
    (hP : s.draft.place = some P)
    (hat : I.At P r) (hstack : r.stack = x :: below) (hx : x.isReference = false) :
    ¬ I.machine.Inevitably others (I.AtEnd t) (I.machine.Throws x handlers) r := by
  obtain ⟨s0, t0, Q, resume, rethrow, htest, hwf0, hP0, hQ, hext, -⟩ :=
    resumeOrRethrow_shape h hs hP
  obtain ⟨_, s1, h1, h2⟩ := gives_bind.mp
    (show (Lower.emitAll [.dup, .null] >>= fun _ => Lower.emit .sameObject).Gives s0 () t0 from htest)
  obtain ⟨f1, hplace1⟩ := of_emitAll (by simp [Inst.isTerminator]) h1 hwf0 hP0
  obtain ⟨f2, hlaid, _⟩ := of_emit h2 f1.wf rfl hplace1
  have heffects : I.machine.effects [.dup, .null] r.stack r.memory
      = some (.null :: x :: x :: below, r.memory) := by
    rw [hstack]
    rfl
  have hway := routes_emitAll ht hwf hsep (by simp [Inst.isTerminator, Inst.isRouting]) h1 hwf0
    (f2.extended.trans hext) hP0 hat heffects
  intro hthrows
  refine Machine.not_inevitably_of_stuck (i := .sameObject) ?_ rfl (by simp) ?_ (hway.throws_later hthrows)
  · exact code_at ht (hext.laid hlaid) ⟨hat.1, by simp [hat.2]⟩
  · rw [Machine.exec_of_not_terminator rfl]
    simp [Machine.effect_sameObject, hx]

theorem leaves_of_resume (h : Site.resumeOrRethrow.Gives s () t) (hs : s.draft.WF)
    (hP : s.draft.place = some P) (hat : I.At P r) (hstack : r.stack = x :: .uninitialized :: base) :
    (I.machine.Inevitably others (I.AtEnd t) (I.machine.Throws x r.handlers) r ↔
      x.isReference = true ∧ x ≠ .null ∨ t.draft.place = none) ∧
    (x = .null → t.draft.place ≠ none →
      I.machine.Inevitably others (fun _ => False)
        (fun r' => I.AtEnd t r' ∧ r'.stack = .uninitialized :: base ∧ r'.handlers = r.handlers) r) := by
  cases hx : x.isReference with
  | false =>
    obtain ⟨_, _, _, _, _, _, _, _, _, _, _, _, _, hplace⟩ := resumeOrRethrow_shape h hs hP
    refine ⟨iff_of_false (not_throws_of_not_isReference ht hwf hsep h hs hP hat hstack hx) ?_, ?_⟩
    · simp [hplace]
    · rintro rfl
      cases hx
  | true =>
    obtain ⟨resume, rethrow, hdrop, hthrow, hplace, hway⟩ :=
      routes_resumeOrRethrow ht hwf hsep h hs hP hat hstack hx
    by_cases hnull : x = .null
    · rw [if_pos hnull] at hway
      -- The mark is dropped, which is the end of the handler.
      have hresumed : I.machine.Routes (I.AtEnd t) r
          { r with block := I.number resume, offset := 1, stack := .uninitialized :: base } := by
        refine hway.trans (.step (code_at ht hdrop ⟨rfl, rfl⟩) rfl nofun
          (not_atEnd hwf hsep hdrop ⟨rfl, rfl⟩) ?_ (.refl _))
        change I.machine.exec .drop _ = _
        rw [Machine.exec_of_not_terminator rfl, hstack]
        rfl
      have hend : I.AtEnd t
          { r with block := I.number resume, offset := 1, stack := .uninitialized :: base } :=
        ⟨_, hplace, rfl, rfl⟩
      refine ⟨iff_of_false (fun hthrows => ?_) (by simp [hnull, hplace]), fun _ _ => ?_⟩
      · cases hresumed.throws_later hthrows with
        | now hnow =>
          rw [hnull] at hnow
          cases hnow.top
        | later passed => exact passed hend
      · exact (hresumed.mono fun _ hf => hf.elim).inevitably (.now ⟨hend, rfl, rfl⟩)
    · rw [if_neg hnull] at hway
      refine ⟨iff_of_true (hway.inevitably (.now ⟨?_, by simp [hstack], rfl⟩)) (.inl ⟨rfl, hnull⟩),
        fun h => (hnull h).elim⟩
      exact code_at ht hthrow ⟨rfl, rfl⟩

end Routes

end Image

/-! ## Handlers -/

namespace Site

/-- Regions as the handlers around an expression make them, the innermost first. -/
inductive Encloses (site : Site) : List Region → Prop where
  | outside : Encloses site []
  | inside {regions : List Region} (cleanup : Option Expr) (isOpen : Bool)
      (outer : Encloses site regions) :
      Encloses site (⟨cleanup.map fun e => site.lower e regions .effect, isOpen⟩ :: regions)

theorem Encloses.cleanups {site : Site} {regions : List Region} (h : site.Encloses regions) :
    Tidy.Cleanups regions := by
  induction h with
  | outside => exact nofun
  | inside cleanup isOpen _ ih =>
    refine ih.cons (fun m hm => ?_) isOpen
    obtain ⟨e, _, rfl⟩ := Option.map_eq_some_iff.mp hm
    exact .lower site e .effect ih

theorem tidy_bindException (site : Site) (binding : Option DefnId) :
    Tidy (site.bindException binding) := by
  cases binding with
  | none => exact .emit rfl
  | some d => exact .bind (.of_quiet (.slot site d) fun h => (gives_slot.mp h).2) fun _ => .emit rfl

variable {site : Site} {regions : List Region} {mode : Mode} {typeofSlot subtypeSlot : Nat}
  {t : LowerState} {done noMatch : BlockId}

theorem lowerClauses_awaits (hr : Tidy.Cleanups regions) :
    ∀ {clauses : List Clause} {s : LowerState} {next : BlockId},
      (site.lowerClauses typeofSlot subtypeSlot clauses regions mode done next).Gives s noMatch t →
      s.draft.WF → s.draft.Awaits done next →
      t.draft.WF ∧ s.Extends t ∧ t.draft.Awaits done noMatch
  | [], s, next, h, hs, hw => by
    rw [lowerClauses] at h
    obtain ⟨rfl, rfl⟩ := gives_pure.mp h
    exact ⟨hs, .refl _, hw⟩
  | .mk binding guard body :: rest, s, next, h, hs, hw => by
    rw [lowerClauses] at h
    obtain ⟨other, u, h1, h2⟩ := gives_bind.mp h
    obtain ⟨hwf, hext, hw, _⟩ := clauseCode_shape
      (.bind (site.tidy_bindException binding) fun _ => .lower site body mode hr) h1 hs hw
    obtain ⟨hwf', hext', hw'⟩ := lowerClauses_awaits hr h2 hwf hw
    exact ⟨hwf', hext.trans hext', hw'⟩

end Site

/-- Where the code of a handler with a cleanup stands. -/
structure CleanupCode (site : Site) (clauses : List Clause) (cleanup : Expr) (regions : List Region)
    (mode : Mode) (P : Place) (t : LowerState) where
  body : BlockId
  /-- Where an exception that is thrown in the protected body gets to. -/
  handler : BlockId
  normal : BlockId
  /-- Where an exception that no clause takes gets to. -/
  unwinding : BlockId
  /-- The place where the cleanup begins. -/
  first : Place
  /-- The place where it ends, if it can complete. -/
  last : Option Place
  opened : t.Laid P (.pushTry body handler)
  tried : ∃ typeofSlot subtypeSlot s0 t0,
    (site.lowerClauses typeofSlot subtypeSlot clauses
      (⟨some (site.lower cleanup regions .effect), false⟩ :: regions) mode normal handler).Gives
        s0 unwinding t0 ∧ t0.Extends t
  cleans : ∃ s0 t0, (site.lower cleanup regions .effect).Gives s0 () t0 ∧ s0.draft.WF ∧
    s0.draft.place = some first ∧ t0.draft.place = last ∧ t0.Extends t

namespace CleanupCode

variable {site : Site} {clauses : List Clause} {cleanup : Expr} {regions : List Region}
  {mode : Mode} {P : Place} {t : LowerState}

/-- The exceptional exit leads into the cleanup, with the exception on top of the stack. -/
def Enters (C : CleanupCode site clauses cleanup regions mode P t) (I : Image)
    (others : Running → Config → Prop) : Prop :=
  ∀ {x : Value} {base : List Value} {r : Running}, I.At (C.unwinding, 0) r → r.stack = x :: base →
    I.machine.Inevitably others (I.AtEnd t)
      (fun r' => I.At C.first r' ∧ r'.stack = x :: .uninitialized :: base ∧
        r'.handlers = r.handlers ∧ r'.memory = r.memory) r

/-- When the cleanup has completed after the exceptional exit, the exception is thrown on
exactly if it can be told from the mark of the normal exit, or if there is no normal exit.
A `null` that is not thrown on makes the handler complete. -/
def Leaves (C : CleanupCode site clauses cleanup regions mode P t) (I : Image)
    (others : Running → Config → Prop) : Prop :=
  ∀ {x : Value} {base : List Value} {r : Running} {Q : Place}, C.last = some Q → I.At Q r →
    r.stack = x :: .uninitialized :: base →
    (I.machine.Inevitably others (I.AtEnd t) (I.machine.Throws x r.handlers) r ↔
      x.isReference = true ∧ x ≠ .null ∨ t.draft.place = none) ∧
    (x = .null → t.draft.place ≠ none →
      I.machine.Inevitably others (fun _ => False)
        (fun r' => I.AtEnd t r' ∧ r'.stack = .uninitialized :: base ∧ r'.handlers = r.handlers) r)

end CleanupCode

namespace Site

variable {site : Site} {clauses : List Clause} {cleanup : Expr} {regions : List Region}
  {mode : Mode} {t : LowerState} {P : Place}

theorem attempt_shape (hr : Tidy.Cleanups regions) {ty : Ty} {body : Expr}
    (h : (site.lower (.attempt ty body clauses (some cleanup)) regions mode).Gives s () t)
    (hs : s.draft.WF) (hP : s.draft.place = some P) :
    ∃ bodyLabel handler normal unwinding u, u.Laid P (.pushTry bodyLabel handler) ∧
      (∃ typeofSlot subtypeSlot s0,
        (site.lowerClauses typeofSlot subtypeSlot clauses
          (⟨some (site.lower cleanup regions .effect), false⟩ :: regions) mode normal handler).Gives
            s0 unwinding u) ∧
      u.draft.WF ∧ u.draft.Awaits normal unwinding ∧
      (cleanupEnd (site.lower cleanup regions .effect) normal unwinding).Gives u () t := by
  have hc : Tidy (site.lower cleanup regions .effect) := .lower site cleanup .effect hr
  rw [lower] at h
  obtain ⟨bodyLabel, handler, normal, _, _, u, _, _, _, _, hpush, _, hwf, hw, hrest⟩ :=
    protect_shape (.lower site body mode (hr.add hc true)) h hs hP
  split at hrest
  · rename_i hempty
    obtain rfl := List.isEmpty_iff.mp hempty
    refine ⟨bodyLabel, handler, normal, handler, u, hpush, ⟨0, 0, u, ?_⟩, hwf, hw, hrest⟩
    rw [lowerClauses]
    exact gives_pure.mpr ⟨rfl, rfl⟩
  · simp only [gives_bind] at hrest
    obtain ⟨typeofSlot, u1, h1, subtypeSlot, u2, h2, unwinding, u3, h3, h4⟩ := hrest
    rw [(gives_builtinSlot h2).1, (gives_builtinSlot h1).1] at h3
    obtain ⟨hwf', hext, hw'⟩ := lowerClauses_awaits (hr.add hc false) h3 hwf hw
    exact ⟨bodyLabel, handler, normal, unwinding, u3, hext.laid hpush,
      ⟨typeofSlot, subtypeSlot, u, h3⟩, hwf', hw', h4⟩

/-- After an exception a cleanup passes it on unless it is taken for the mark of the normal
exit, whatever the body, the clauses and the cleanup are and whatever calls do. -/
theorem cleanup_rethrows_iff (hr : site.Encloses regions) {ty : Ty} {body : Expr}
    (h : (site.lower (.attempt ty body clauses (some cleanup)) regions mode).Gives s () t)
    (hs : s.draft.WF) (hP : s.draft.place = some P) :
    ∃ C : CleanupCode site clauses cleanup regions mode P t, ∀ {I : Image}
      (others : Running → Config → Prop), I.Installed t → I.Separates t →
      C.Enters I others ∧ C.Leaves I others := by
  have hwf : t.draft.WF := ((Tidy.lower site _ mode hr.cleanups).forward h hs).wf
  obtain ⟨bodyLabel, handler, normal, unwinding, u, hpush, ⟨typeofSlot, subtypeSlot, u₀, htried⟩,
    hwfu, hw, hend⟩ := attempt_shape hr.cleanups h hs hP
  obtain ⟨label, s₀, t₀, hext, _, harm, hclean, hwf₀, hplace, hext₀, hwf₁, hends⟩ :=
    cleanupEnd_shape (.lower site cleanup .effect hr.cleanups) hend hwfu hw
  refine ⟨⟨bodyLabel, handler, normal, unwinding, (label, 0), t₀.draft.place, hext.laid hpush,
    ⟨typeofSlot, subtypeSlot, u₀, u, htried, hext⟩, ⟨s₀, t₀, hclean, hwf₀, hplace, rfl, hext₀⟩⟩,
    fun {I} others ht hsep => ⟨?_, ?_⟩⟩
  · intro x base r hat hstack
    exact (Image.routes_unwinding ht hwf hsep harm hat hstack).inevitably
      (.now ⟨⟨rfl, rfl⟩, rfl, rfl, rfl⟩)
  · intro x base r Q hQ hat hstack
    rcases hends Q hQ with hresume | ⟨hthrow, _, hnone⟩
    · exact Image.leaves_of_resume ht hwf hsep hresume hwf₁ hQ hat hstack
    · refine ⟨⟨fun _ => .inr hnone, fun _ => .now ⟨?_, by rw [hstack]; rfl, rfl⟩⟩,
        fun _ hne => (hne hnone).elim⟩
      exact Image.code_at ht hthrow hat

end Site

/-! A function whose cleanup has two exits: `try { if (b) throw x else 1 } finally { 2 }`. -/

def Expr.guarding : Expr :=
  .mkAttempt
    (.mkCond (.variable .boolean ⟨14⟩)
      (.mkThrow (.variable (.object exceptionClass [] true) ⟨15⟩)) (.ofLiteral (.i64 1)))
    [] (some (.ofLiteral (.i64 2)))

def FunctionDecl.guarding : FunctionDecl :=
  { id := ⟨10⟩, name := "guard", kind := .global, scope := ⟨0⟩, returnTy := .i64,
    typeParams := [], params := [⟨14⟩, ⟨15⟩], chain := none, isBuiltin := false, isFinal := false,
    lowered := none, body := some .guarding }

def Program.guarding : Program :=
  { Program.initial with
    definitions := Program.initial.definitions ++ #[
      ⟨⟨14⟩, "b", .parameter, .boolean, false, ⟨0⟩⟩,
      ⟨⟨15⟩, "x", .parameter, .object exceptionClass [] true, false, ⟨0⟩⟩]
    functions := Program.initial.functions.push .guarding }

def Body.guarding : Body :=
  { params := [⟨⟨14⟩, "b", .boolean, 0⟩, ⟨⟨15⟩, "x", .object exceptionClass [] true, 1⟩]
    locals := []
    blocks := [
      ⟨⟨0⟩, [.pushTry ⟨1⟩ ⟨6⟩]⟩,
      ⟨⟨1⟩, [.loadLocal 0, .branchIf ⟨2⟩ ⟨3⟩]⟩,
      ⟨⟨2⟩, [.loadLocal 1, .throw]⟩,
      ⟨⟨3⟩, [.i64 1, .branch ⟨4⟩]⟩,
      ⟨⟨4⟩, [.popTry ⟨5⟩]⟩,
      ⟨⟨5⟩, [.null, .branch ⟨7⟩]⟩,
      ⟨⟨6⟩, [.uninitialized, .swap, .branch ⟨7⟩]⟩,
      ⟨⟨7⟩, [.i64 2, .drop, .dup, .null, .sameObject, .branchIf ⟨8⟩ ⟨9⟩]⟩,
      ⟨⟨8⟩, [.drop, .ret]⟩,
      ⟨⟨9⟩, [.throw]⟩] }

def Site.guarding : Site := ⟨.guarding, .guarding, Body.guarding.params⟩

/-- An exception that is an object is thrown on, and `null` is not. -/
theorem Site.cleanup_rethrows_iff_guarding : ∃ t Q, ∃ C : CleanupCode .guarding []
      (.ofLiteral (.i64 2)) [] .value (⟨0⟩, 0) t,
    (Site.guarding.lower .guarding [] .value).Gives ⟨.initial, #[]⟩ () t ∧ C.last = some Q ∧
    ∀ {I : Image} (others : Running → Config → Prop) {r : Running}, I.Installed t → I.Separates t →
      I.At Q r → r.handlers = [] →
      (r.stack = [.object 0, .uninitialized] →
        I.machine.Inevitably others (I.AtEnd t) (I.machine.Throws (.object 0) []) r) ∧
      (r.stack = [.null, .uninitialized] →
        ¬ I.machine.Inevitably others (I.AtEnd t) (I.machine.Throws .null []) r) := by
  have hlowers : ((Site.guarding.lower .guarding [] .value).run ⟨.initial, #[]⟩).toOption.map
      (fun r => r.2.draft.place.isSome) = some true := by decide +kernel
  obtain ⟨⟨_, t⟩, hgives, hplace⟩ := Option.map_eq_some_iff.mp hlowers
  have hgives : (Site.guarding.lower .guarding [] .value).Gives ⟨.initial, #[]⟩ () t :=
    Checked.eq_ok_of_toOption hgives
  obtain ⟨C, hC⟩ := Site.cleanup_rethrows_iff .outside hgives Draft.wf_initial rfl
  -- The cleanup pushes a number and drops it.
  obtain ⟨s₀, t₀, hclean, hwf, hfirst, hlast, _⟩ := C.cleans
  obtain ⟨_, s₁, h₁, h₂⟩ := Lower.gives_bind.mp
    (show (Lower.emit (.i64 2) >>= fun _ => Lower.emit .drop).Gives s₀ () t₀ from hclean)
  obtain ⟨f₁, _, hplace₁⟩ := LowerState.Forward.of_emit h₁ hwf rfl hfirst
  obtain ⟨_, _, hplace₂⟩ := LowerState.Forward.of_emit h₂ f₁.wf rfl hplace₁
  have hlast := hlast.symm.trans hplace₂
  refine ⟨t, _, C, hgives, hlast, fun {I} others {r} ht hsep hat hhandlers => ?_⟩
  obtain ⟨_, hleaves⟩ := hC others ht hsep
  refine ⟨fun hstack => ?_, fun hstack => ?_⟩
  · have := (hleaves hlast hat hstack).1.mpr (.inl ⟨rfl, nofun⟩)
    rwa [hhandlers] at this
  · have := (hleaves hlast hat hstack).1
    rw [hhandlers] at this
    rw [this]
    rintro (⟨_, h⟩ | h)
    · exact h rfl
    · rw [h] at hplace
      cases hplace

def Runtime.guarding : Runtime := ⟨.guarding, .integers, fun _ => .unit⟩

/-- `b` is true and `x` is `null`. -/
def Memory.guarding : Memory where
  frame i := if i = 0 then .boolean true else .null
  world := ⟨fun _ => .unit, fun _ => none, []⟩
  typeObjects := []

theorem lowerFunction_guarding :
    lowerFunction .guarding .standard .guarding #[] = .ok (.guarding, #[]) :=
  Checked.eq_ok_of_toOption (by decide +kernel)

/-- The body throws `null`, the cleanup completes, and the function returns. -/
theorem null_taken_for_normal_exit :
    lowerFunction .guarding .standard .guarding #[] = .ok (.guarding, #[]) ∧
    (Body.guarding.machine .guarding []).Reaches (.entry .guarding)
      (.running ⟨⟨2⟩, 1, [.null], [(⟨6⟩, 0)], .guarding⟩) ∧
    (Body.guarding.machine .guarding []).Reaches (.running ⟨⟨2⟩, 1, [.null], [(⟨6⟩, 0)], .guarding⟩)
      (.running ⟨⟨7⟩, 2, [.null, .uninitialized], [], .guarding⟩) ∧
    (Body.guarding.machine .guarding []).Reaches
      (.running ⟨⟨7⟩, 2, [.null, .uninitialized], [], .guarding⟩)
      (.returned .uninitialized .guarding) := by
  refine ⟨lowerFunction_guarding, ?_, ?_, ?_⟩
  · exact .step rfl (.step rfl (.step rfl (.step rfl (.refl _))))
  · exact .step rfl (.step rfl (.step rfl (.step rfl (.step rfl (.step rfl (.refl _))))))
  · exact .step rfl (.step rfl (.step rfl (.step rfl (.step rfl (.step rfl (.refl _))))))

end StackBackend
