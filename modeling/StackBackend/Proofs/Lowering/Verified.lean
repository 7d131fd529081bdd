import StackBackend.Compile
import StackBackend.Proofs.Lowering.FunctionBody
import StackBackend.Proofs.Lowering.Verifier

/-! Lowered programs pass verification: every block is entered from one before it. -/

namespace StackBackend

open Pass List

variable {p q : Program} {options : CompileOptions} {body : Body}

theorem verifyBody_ok (function : String) (hg : BlockGraph body.blocks)
    (ho : ∀ b ∈ body.blocks, ∀ i ∈ b.instructions, operandInRange p body i = true) :
    verifyBody p function body = .ok () := by
  refine verifyBody_eq_ok_iff.mpr ⟨hg.nonempty, fun k b hb => ?_, hg.reachable⟩
  have hmem := mem_of_getElem? hb
  exact ⟨hg.numbered k b hb, hg.terminated b hmem, hg.targets b hmem, ho b hmem⟩

/-! ## Programs -/

theorem lowerFunctions_ok {fs : List FunctionDecl} :
    ∀ {strings pool : Array String} {bodies : List (FunctionId × Body)},
      lowerFunctions p options fs strings = .ok (bodies, pool) →
      strings.size ≤ pool.size ∧ ∀ entry ∈ bodies, ∃ f ∈ fs, ∃ before t,
        LoweredFrom p f before entry.2 t ∧ t.strings.size ≤ pool.size := by
  induction fs with
  | nil => intro strings pool bodies h; cases h; exact ⟨le_rfl, fun _ h => nomatch h⟩
  | cons f rest ih =>
    intro strings pool bodies h
    obtain ⟨⟨body, mid⟩, hbody, h⟩ := Checked.bind_eq_ok.mp h
    obtain ⟨⟨others, last⟩, hrest, h⟩ := Checked.bind_eq_ok.mp h
    cases h
    obtain ⟨t, hfrom, rfl⟩ := lowerFunction_ok hbody
    obtain ⟨hsize, hothers⟩ := ih hrest
    have hgrow := ((emits_lowerEntry _).pool hfrom.entry).length_le
    refine ⟨hgrow.trans hsize, fun entry he => ?_⟩
    rcases mem_cons.mp he with rfl | he
    · exact ⟨f, .head _, strings, t, hfrom, hsize⟩
    · obtain ⟨g, hg, rest'⟩ := hothers entry he
      exact ⟨g, mem_cons_of_mem f hg, rest'⟩

theorem storeBodies_ok {bodies : List (FunctionId × Body)} : ∀ {p q : Program} {v : Unit},
    (Pass.storeBodies bodies).Gives p v q →
    (∃ functions, q = { p with functions } ∧ functions.size = p.functions.size) ∧
    ∀ g ∈ q.functions.toList, g.lowered = none ∨ (∃ f ∈ p.functions.toList, f.lowered = g.lowered) ∨
      ∃ entry ∈ bodies, g.lowered = some entry.2 := by
  induction bodies with
  | nil =>
    intro p q v h
    obtain ⟨_, rfl⟩ := gives_pure.mp h
    exact ⟨⟨q.functions, rfl, rfl⟩, fun g hg => .inr (.inl ⟨g, hg, rfl⟩)⟩
  | cons entry rest ih =>
    intro p q v h
    obtain ⟨_, r, h1, h2⟩ := gives_bind.mp h
    obtain ⟨_, rfl⟩ := gives_modifyFunction.mp h1
    obtain ⟨⟨functions, rfl, hsize⟩, hall⟩ := ih h2
    refine ⟨⟨functions, rfl, by rw [hsize, Array.size_modify]⟩, fun g hg => ?_⟩
    rcases hall g hg with h | ⟨f, hf, h⟩ | ⟨e, he, h⟩
    · exact .inl h
    · obtain ⟨k, hk⟩ := Array.mem_iff_getElem?.mp (Array.mem_toList_iff.mp hf)
      rw [Array.getElem?_modify] at hk
      split at hk
      · obtain ⟨f', _, rfl⟩ := Option.map_eq_some_iff.mp hk
        exact .inr (.inr ⟨entry, .head _, h.symm⟩)
      · exact .inr (.inl ⟨f, Array.mem_toList_iff.mpr (Array.mem_of_getElem? hk), h⟩)
    · exact .inr (.inr ⟨e, mem_cons_of_mem entry he, h⟩)

theorem verifyProgram_ok (h : ∀ f ∈ p.functions.toList, ∀ body, f.lowered = some body →
      verifyBody p f.name body = .ok ()) : verifyProgram p = .ok () := by
  unfold verifyProgram
  generalize p.functions.toList = fs at h
  induction fs with
  | nil => rfl
  | cons f rest ih =>
    have hrest := ih fun g hg => h g (mem_cons_of_mem f hg)
    rw [List.forM]
    cases hl : f.lowered with
    | none => exact hrest
    | some body =>
      dsimp only
      rw [h f (.head _) body hl]
      exact hrest

theorem requireLayouts_apply (p : Program) :
    Pass.requireLayouts p = (match p.classes.find? (·.layout.isNone) with
      | some cls => stop (.layoutNotFinalized cls.name)
      | none => pure () : Pass Unit) p := rfl

theorem requireLayouts_run (p : Program) :
    (∃ cls ∈ p.classes, cls.layout = none) ∧ (∃ e, Pass.requireLayouts p = .error e p) ∨
      (∀ cls ∈ p.classes, cls.layout ≠ none) ∧ Pass.requireLayouts p = .ok () p := by
  have hrun := requireLayouts_apply p
  cases hfind : p.classes.find? (·.layout.isNone) with
  | some cls =>
    rw [hfind] at hrun
    exact .inl ⟨⟨cls, Array.mem_of_find?_eq_some hfind, by simpa using Array.find?_some hfind⟩, _, hrun⟩
  | none =>
    rw [hfind] at hrun
    exact .inr ⟨by simpa using hfind, hrun⟩

theorem requireLayouts_eq {v : Unit} (h : Pass.requireLayouts.Gives p v q) : q = p := by
  rcases requireLayouts_run p with ⟨_, _, hrun⟩ | ⟨_, hrun⟩ <;> cases hrun.symm.trans h
  rfl

theorem verify_of_generateCode (hp : p.Linked) (h : (Pass.generateCode options).Gives p () q) :
    verifyProgram q = .ok () := by
  simp only [Pass.generateCode, gives_bind, gives_get, gives_set, gives_lift,
    gives_modify] at h
  obtain ⟨_, _, hlayouts, _, _, ⟨rfl, rfl⟩, _, _, rfl, ⟨bodies, pool⟩, _, ⟨hbodies, rfl⟩, _, _,
    hstore, rfl⟩ := h
  cases requireLayouts_eq hlayouts
  obtain ⟨hkept, hfrom⟩ := lowerFunctions_ok hbodies
  obtain ⟨⟨functions, rfl, hsize⟩, hlowered⟩ := storeBodies_ok hstore
  refine verifyProgram_ok fun g hg body hbody => ?_
  -- No function had code before, so its body is one that was lowered here.
  have hentry : ∃ entry ∈ bodies, body = entry.2 := by
    rcases hlowered g hg with h | ⟨f, hf, h⟩ | ⟨entry, he, h⟩
    · rw [h] at hbody; cases hbody
    · rw [← h, hp.unlowered f hf] at hbody; cases hbody
    · rw [h] at hbody; cases hbody; exact ⟨entry, he, rfl⟩
  obtain ⟨entry, he, rfl⟩ := hentry
  obtain ⟨f, hf, before, t, hlow, hpool⟩ := hfrom entry he
  have hf := (mem_filter.mp hf).1
  refine verifyBody_ok g.name (hlow.blocks ▸ hlow.finished.blockGraph) fun b hb i hi => ?_
  rcases hlow.operands hp hf b hb i hi with h | ⟨k, rfl, hk⟩
  · refine operandInRange_congr (p := p) rfl rfl hsize rfl rfl rfl ?_ h
    rintro k rfl
    exact (of_decide_eq_true h).trans_le hkept
  · simpa [operandInRange] using hk.trans_le hpool

/-! ## Compilation -/

theorem generateCode_congr {o o' : CompileOptions} (h : o.maxLocals = o'.maxLocals) :
    Pass.generateCode o = Pass.generateCode o' := by
  have hfunctions (p : Program) (fs : List FunctionDecl) (strings : Array String) :
      lowerFunctions p o fs strings = lowerFunctions p o' fs strings := by
    induction fs generalizing strings with
    | nil => rfl
    | cons f rest ih => simp only [lowerFunctions, lowerFunction, h, ih]
  simp only [Pass.generateCode, hfunctions]

theorem gives_verification {r : Program} : (do
      if options.verify then
        match verifyProgram (← get) with
        | .ok () => pure ()
        | .error e => Pass.stop e : Pass Unit).Gives r () q ↔
      q = r ∧ (options.verify = true → verifyProgram q = .ok ()) := by
  by_cases hoption : options.verify = true
  · rw [if_pos hoption, gives_get_bind]
    cases hverify : verifyProgram r with
    | ok =>
      refine gives_pure.trans ⟨fun h => ⟨h.2, fun _ => h.2 ▸ hverify⟩, fun h => ⟨rfl, h.1⟩⟩
    | error e =>
      refine ⟨fun h => absurd h not_gives_stop, fun h => ?_⟩
      cases hverify.symm.trans (h.1 ▸ h.2 hoption)
  · rw [if_neg hoption]
    exact gives_pure.trans ⟨fun h => ⟨h.2, fun h' => absurd h' hoption⟩, fun h => ⟨rfl, h.1⟩⟩

theorem compile_verify (h : ∀ q, Pass.prepare.Gives p () q → q.Linked) (options : CompileOptions) :
    p.compile { options with verify := true } = p.compile { options with verify := false } := by
  have hcongr (verify : Bool) :
      Pass.generateCode { options with verify } = Pass.generateCode options :=
    generateCode_congr rfl
  have hrun : Pass.compileAll { options with verify := true } p =
      Pass.compileAll { options with verify := false } p := by
    unfold Pass.compileAll
    rw [hcongr true, hcongr false]
    refine bind_congr_of_gives fun _ q hprepare => bind_congr_of_gives fun _ r hcode => ?_
    exact gives_verification.mpr ⟨rfl, fun _ => verify_of_generateCode (h q hprepare) hcode⟩
  unfold Program.compile EStateM.run
  rw [hrun]

/-- Lowering never leaves a block open or a target missing; the blocks of a body
form a graph that is entered at its first block; and in a linked program all code
that is generated passes verification, so that verification makes no difference. -/
theorem lowered_code_verifies (p : Program) (options : CompileOptions) :
    (∀ f strings function block, lowerFunction p options f strings ≠
      .error (.rejected (.unterminatedBlock function block))) ∧
    (∀ f strings function block target, lowerFunction p options f strings ≠
      .error (.rejected (.invalidBranchTarget function block target))) ∧
    (∀ f strings body pool, lowerFunction p options f strings = .ok (body, pool) →
      BlockGraph body.blocks ∧ ∀ k < body.blocks.length,
        Relation.ReflTransGen (BlockStep body.blocks) 0 k) ∧
    (p.Linked → ∀ q, (Pass.generateCode options).Gives p () q → verifyProgram q = .ok ()) ∧
    ((∀ q, Pass.prepare.Gives p () q → q.Linked) →
      p.compile { options with verify := true } = p.compile { options with verify := false }) := by
  refine ⟨fun f strings function block h => ?_, fun f strings function block target h => ?_,
    fun f strings body pool h => ?_, fun hp q h => verify_of_generateCode hp h,
    fun h => compile_verify h options⟩
  · exact absurd (lowerFunction_clean _ h) nofun
  · exact absurd (lowerFunction_clean _ h) nofun
  · obtain ⟨t, hfrom, _⟩ := lowerFunction_ok h
    have hgraph : BlockGraph body.blocks := hfrom.blocks ▸ hfrom.finished.blockGraph
    exact ⟨hgraph, hgraph.reachable⟩

/-- The function `while (flag) { return 1 } 2`. -/
def FunctionDecl.waiting : FunctionDecl :=
  { id := ⟨0⟩, name := "wait", kind := .global, scope := ⟨0⟩, returnTy := .i32, typeParams := [],
    params := [⟨0⟩], chain := none, isBuiltin := false, isFinal := false, lowered := none,
    body := some (.mkBlock [
      .expr (.mkLoop (.variable .boolean ⟨0⟩) (.mkRet (some (.ofLiteral (.i32 1))))),
      .expr (.ofLiteral (.i32 2))]) }

def Body.waiting : Body :=
  { params := [⟨⟨0⟩, "flag", .boolean, 0⟩]
    locals := []
    blocks := [
      ⟨⟨0⟩, [.branch ⟨1⟩]⟩,
      ⟨⟨1⟩, [.loadLocal 0, .branchIf ⟨2⟩ ⟨3⟩]⟩,
      ⟨⟨2⟩, [.i32 1, .ret]⟩,
      ⟨⟨3⟩, [.i32 2, .ret]⟩] }

def Program.waiting (lowered : Option Body) : Program :=
  { Program.empty with
    scopes := #[⟨⟨0⟩, none, .global, .empty⟩]
    definitions := #[⟨⟨0⟩, "flag", .parameter, .boolean, false, ⟨0⟩⟩]
    functions := #[{ FunctionDecl.waiting with lowered }] }

theorem Program.linked_waiting : (Program.waiting none).Linked where
  mentions := by decide
  globals d hd n hn := by
    cases mem_singleton.mp hd
    cases hn
  unlowered f hf := by
    cases mem_singleton.mp hf
    rfl
  receivers f hf c hc := by
    cases mem_singleton.mp hf
    cases hc

theorem lowered_code_verifies_waiting :
    (Program.waiting none).Linked ∧
    (Pass.generateCode .standard).Gives (.waiting none) () (.waiting (some .waiting)) ∧
    verifyProgram (.waiting (some .waiting)) = .ok () := by
  have hcode : (Pass.generateCode .standard).Gives (.waiting none) () (.waiting (some .waiting)) := by
    unfold Pass.Gives
    with_unfolding_all rfl
  exact ⟨Program.linked_waiting, hcode,
    (lowered_code_verifies (.waiting none) .standard).2.2.2.1 Program.linked_waiting _ hcode⟩

/-! ## Failures -/

theorem storeBodies_ne_rejected {e : CompileError} (bodies : List (FunctionId × Body)) :
    Pass.storeBodies bodies p ≠ .error (.rejected e) q := by
  intro h
  obtain ⟨_, _, _, _, _, _, h⟩ := forM_eq_error _ h
  rcases bind_eq_error.mp h with h | ⟨_, _, _, h⟩
  · exact entryAt_ne_rejected (ask_eq_error.mp h).1
  · cases h

/-- Generation that fails leaves the pool empty, unless a class has no tables. So the program is as
it was just if it had no strings or nothing was lowered. -/
theorem failed_generation_keeps_iff {e : CompileError}
    (h : Pass.generateCode options p = .error (.rejected e) q) :
    { q with strings := p.strings } = p ∧
      (q = p ↔ p.strings = #[] ∨ ∃ cls ∈ p.classes, cls.layout = none) := by
  rcases requireLayouts_run p with ⟨hnone, e', hrun⟩ | ⟨hall, hrun⟩
  · rcases bind_eq_error.mp h with h | ⟨_, _, h, _⟩
    · cases hrun.symm.trans h
      exact ⟨rfl, fun _ => .inr hnone, fun _ => rfl⟩
    · cases hrun.symm.trans h
  have hq : q = { p with strings := #[] } := by
    rcases bind_eq_error.mp h with h | ⟨_, _, hgives, h⟩
    · cases hrun.symm.trans h
    cases hrun.symm.trans hgives
    rcases bind_eq_error.mp h with h | ⟨_, _, hget, h⟩
    · cases h
    cases hget
    rcases bind_eq_error.mp h with h | ⟨_, _, hset, h⟩
    · cases h
    cases hset
    rcases bind_eq_error.mp h with h | ⟨⟨bodies, pool⟩, _, _, h⟩
    · exact (lift_eq_error.mp h).2
    rcases bind_eq_error.mp h with h | ⟨_, _, _, h⟩
    · exact absurd h (storeBodies_ne_rejected bodies)
    · cases h
  subst hq
  refine ⟨rfl, fun h => .inl (congrArg Program.strings h).symm, ?_⟩
  rintro (hempty | ⟨cls, hcls, hnone⟩)
  · rw [← hempty]
  · exact absurd hnone (hall cls hcls)

/-- A function that has code with a string, and can no longer be lowered. -/
def Program.greeting (strings : Array String) : Program :=
  { Program.empty with
    strings
    functions := #[{ FunctionDecl.waiting with
      body := none
      params := []
      chain := some .initial
      lowered := some ⟨[], [], [⟨⟨0⟩, [.string 0, .ret]⟩]⟩ }] }

theorem generateCode_greeting : Pass.generateCode .standard (.greeting #["hello"]) =
    .error (.rejected (.invalidLowering "wait" .noBody)) (.greeting #[]) := by
  with_unfolding_all rfl

/-- The code loses its string. -/
theorem failed_generation_loses_strings : verifyProgram (.greeting #["hello"]) = .ok () ∧
    Pass.generateCode .standard (.greeting #["hello"]) =
      .error (.rejected (.invalidLowering "wait" .noBody)) (.greeting #[]) ∧
    verifyProgram (.greeting #[]) = .error (.invalidOperand "wait" 0 (.string 0)) :=
  ⟨by with_unfolding_all rfl, generateCode_greeting, by with_unfolding_all rfl⟩

theorem failed_generation_keeps_iff_greeting : Program.greeting #[] ≠ .greeting #["hello"] := by
  intro h
  rcases (failed_generation_keeps_iff generateCode_greeting).2.mp h with h | ⟨_, h, _⟩
  · cases h
  · exact Array.not_mem_empty _ h

end StackBackend
