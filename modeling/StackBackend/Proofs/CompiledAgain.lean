import StackBackend.Proofs.Closure.ClosureFree
import StackBackend.Proofs.Layout.FlattenedAgain
import StackBackend.Proofs.Lowering.LoweredAgain
import StackBackend.Proofs.SynthesizedMembers

/-! Compilation once more. A compiled program has all its members, no closures, its tables and
its code, so every stage leaves it as it is. Only a clause of a nested function that binds a
variable of the function around it leaves something to convert. -/

namespace StackBackend

open Pass

variable {i : Nat} {v : Unit} {u : Usage} {needed : RefMap .functions (RefSet .scopes)}
  {c : Captures} {plan : ClosurePlan} {options : CompileOptions} {s : ScopeId}

namespace Program

variable {p p1 p2 q r : Program} {f g : FunctionId} {d : DefnId} {a : Atom}

/-! ## Tables and code -/

/-- The second program is the first one with other tables and other code. -/
structure Annotates (p q : Program) : Prop where
  scopes : q.scopes = p.scopes
  definitions : q.definitions = p.definitions
  initFunction : q.initFunction = p.initFunction
  classes : ∀ i : Nat, q.classes[i]?.map ({ · with layout := none }) =
    p.classes[i]?.map ({ · with layout := none })
  functions : ∀ i : Nat, q.functions[i]?.map FunctionDecl.source =
    p.functions[i]?.map FunctionDecl.source

namespace Annotates

theorem trans (h : p.Annotates q) (h' : q.Annotates r) : p.Annotates r where
  scopes := h'.scopes.trans h.scopes
  definitions := h'.definitions.trans h.definitions
  initFunction := h'.initFunction.trans h.initFunction
  classes i := (h'.classes i).trans (h.classes i)
  functions i := (h'.functions i).trans (h.functions i)

theorem of_source (h : q.source = p.source) : p.Annotates q where
  scopes := source_scopes h
  definitions := source_definitions h
  initFunction := by
    change q.source.initFunction = p.source.initFunction
    rw [h]
  classes i := by rw [source_classes h]
  functions i := source_functions h

section

variable (h : p.Annotates q)
include h

theorem symm : q.Annotates p where
  scopes := h.scopes.symm
  definitions := h.definitions.symm
  initFunction := h.initFunction.symm
  classes i := (h.classes i).symm
  functions i := (h.functions i).symm

theorem class_of {cls : ClassDecl} (hcls : q.classes[i]? = some cls) :
    ∃ layout, p.classes[i]? = some { cls with layout } := by
  have hmap := h.classes i
  rw [hcls] at hmap
  obtain ⟨cls0, hcls0, heq⟩ := Option.map_eq_some_iff.mp hmap.symm
  obtain ⟨_, _, _, _, _, _, _, _, _, _, _, _, _⟩ := cls
  obtain ⟨_, _, _, _, _, _, _, _, _, _, _, _, layout⟩ := cls0
  cases heq
  exact ⟨layout, hcls0⟩

theorem function_of {decl : FunctionDecl} (hdecl : q.functions[i]? = some decl) :
    ∃ lowered, p.functions[i]? = some { decl with lowered } := by
  have hmap := h.functions i
  rw [hdecl] at hmap
  obtain ⟨decl0, hdecl0, heq⟩ := Option.map_eq_some_iff.mp hmap.symm
  exact ⟨decl0.lowered, hdecl0.trans (congrArg some (FunctionDecl.source_eq heq))⟩

theorem classes_lt (hi : i < p.classes.size) : i < q.classes.size := by
  obtain ⟨_, hcls⟩ := exists_of_lt hi
  obtain ⟨_, hcls⟩ := h.symm.class_of hcls
  exact lt_of_get hcls

theorem functions_lt (hi : i < p.functions.size) : i < q.functions.size := by
  obtain ⟨_, hdecl⟩ := exists_of_lt hi
  obtain ⟨_, hdecl⟩ := h.symm.function_of hdecl
  exact lt_of_get hdecl

theorem declares {home : ScopeId} (hhome : p.Declares i home) : q.Declares i home := by
  cases hhome with
  | top => exact .top
  | @member c cls hcls =>
    obtain ⟨layout, hcls⟩ := h.symm.class_of hcls
    exact @Declares.member q i c { cls with layout } hcls
  | @nested g outer hg hlt =>
    obtain ⟨lowered, hg⟩ := h.symm.function_of hg
    exact @Declares.nested q i g { outer with lowered } hg hlt

theorem consistent (hp : p.Consistent) : q.Consistent where
  root := h.scopes ▸ hp.root
  scope hs := by
    rw [h.scopes] at hs
    have hok := hp.scope hs
    exact ⟨hok.id, hok.parent, fun hc => h.classes_lt (hok.cls hc),
      fun hf => h.functions_lt (hok.function hf)⟩
  defn hd := by
    rw [h.definitions] at hd
    have hok := hp.defn hd
    exact ⟨hok.id, h.scopes ▸ hok.scope, fun hc => h.classes_lt (hok.cls hc)⟩
  cls hcls := by
    obtain ⟨layout, hcls⟩ := h.class_of hcls
    have hok := hp.cls hcls
    exact ⟨hok.id, h.scopes ▸ hok.scope⟩
  function hdecl := by
    obtain ⟨lowered, hdecl⟩ := h.function_of hdecl
    have hok := hp.function hdecl
    obtain ⟨s, home, hs, hkind, hparent, hhome⟩ := hok.scope
    refine ⟨hok.id, fun hc => h.classes_lt (hok.owner hc),
      ⟨s, home, h.scopes ▸ hs, hkind, hparent, h.declares hhome⟩, fun d hd => ?_, hok.receiver⟩
    obtain ⟨defn, hdefn, hparam⟩ := hok.params d hd
    exact ⟨defn, h.definitions ▸ hdefn, hparam⟩

theorem complete (hp : p.Complete) : q.Complete where
  initializer {i cls} hcls horigin := by
    obtain ⟨layout, hcls0⟩ := h.class_of hcls
    exact @Complete.initializer p hp i { cls with layout } hcls0 horigin
  constructors {i cls} hcls horigin := by
    obtain ⟨layout, hcls0⟩ := h.class_of hcls
    exact @Complete.constructors p hp i { cls with layout } hcls0 horigin
  globals := h.initFunction ▸ hp.globals

theorem bodyOf? (f : FunctionId) : q.bodyOf? f = p.bodyOf? f := by
  have hbody : ∀ r : Program, r.bodyOf? f =
      (r.functions[f.index]?.map FunctionDecl.source).bind (·.body) := by
    intro r
    unfold Program.bodyOf?
    cases r.functions[f.index]? <;> rfl
  rw [hbody, hbody, h.functions]

theorem inOwnFrame (hd : p.InOwnFrame f d) : q.InOwnFrame f d := by
  obtain ⟨defn, hdefn, hfield, hown⟩ := hd
  refine ⟨defn, h.definitions ▸ hdefn, hfield, fun hkind => ?_⟩
  rw [scopeFunction_of_scopes h.scopes]
  exact hown hkind

theorem unshared (ha : p.Unshared f a) : q.Unshared f a := by
  cases a with
  | self | invokeSelf | function => exact ha
  | «variable» d => exact h.inOwnFrame ha
  | declare d =>
    refine ⟨h.definitions ▸ ha.1, ?_⟩
    rintro s ⟨defn, c, cls, hdefn, hkind, hcls, horigin⟩
    obtain ⟨layout, hcls⟩ := h.class_of hcls
    exact ha.2 s ⟨defn, c, _, h.definitions ▸ hdefn, hkind, hcls, horigin⟩
  | call | value | catches => trivial

theorem isPlainValue (hg : p.IsPlainValue g) : q.IsPlainValue g := by
  obtain ⟨hnested, decl, hdecl, hkind⟩ := hg
  obtain ⟨lowered, hdecl'⟩ := h.symm.function_of hdecl
  refine ⟨?_, _, hdecl', hkind⟩
  rintro ⟨hbody, outer, houter⟩
  refine hnested ⟨h.bodyOf? g ▸ hbody, outer, ?_⟩
  rw [← houter, enclosingFunction_of_scopes h.scopes hdecl hdecl' rfl]

theorem closureFree (hp : p.ClosureFree) : q.ClosureFree where
  consistent := h.consistent hp.consistent
  code {f decl} hdecl a ha := by
    obtain ⟨lowered, hdecl⟩ := h.function_of hdecl
    exact h.unshared (hp.code hdecl a ha)
  values {f g} hg := by
    rw [bodyAtoms, h.bodyOf?] at hg
    exact h.isPlainValue (hp.values hg)

end

end Annotates

/-! ## Clauses -/

theorem ownClauses_iff {named : List Atom} : p.OwnClauses f named ↔
    ((p.enclosingFunction f).toOption.join.isSome = true → ∀ a ∈ named, ∀ d ∈ a.caught?,
      ∀ defn ∈ p.definitions[d.index]?, defn.kind = .localVar →
        p.scopeFunction defn.scope = .ok (some f)) := by
  constructor
  · intro h hnested a ha d hd defn hdefn hkind
    obtain ⟨outer, houter⟩ := Option.isSome_iff_exists.mp hnested
    have houter := Checked.eq_ok_of_toOption (Option.join_eq_some_iff.mp houter)
    cases a <;> cases hd
    exact h houter ha hdefn hkind
  · intro h outer d defn houter hd hdefn hkind
    refine h ?_ _ hd d rfl defn hdefn hkind
    rw [houter]
    rfl

instance {named : List Atom} : Decidable (p.OwnClauses f named) :=
  decidable_of_iff _ ownClauses_iff.symm

theorem nestedClausesOwn_iff : p.NestedClausesOwn ↔ ∀ i < p.functions.size,
    ∀ decl ∈ p.functions[i]?, p.OwnClauses ⟨i⟩ decl.atoms :=
  ⟨fun h _ _ _ hdecl => h hdecl, fun h f _ hdecl => h f.index (lt_of_get hdecl) _ hdecl⟩

instance : Decidable p.NestedClausesOwn := decidable_of_iff _ nestedClausesOwn_iff.symm

/-! ## Stages -/

theorem frame_of_flattenClasses (h : Pass.flattenClasses.Gives p v q) :
    q = { p with classes := q.classes } := by
  obtain ⟨order, _, hrun⟩ := gives_ask_bind.mp h
  refine Pass.Gives.forM (I := fun _ r => r = { p with classes := r.classes }) order [] hrun rfl ?_
  intro _ c _ r r' _ hr hstep
  obtain ⟨layout, _, _, rfl⟩ := gives_flattenClass.mp hstep
  rw [hr]
  rfl

theorem Annotates.of_flattenClasses (h : Pass.flattenClasses.Gives p v q)
    (hids : p.ClassesNumbered) : p.Annotates q := by
  have hframe := frame_of_flattenClasses h
  obtain ⟨hagree, _⟩ := flattened_of_flattenClasses h hids
  refine ⟨?_, ?_, ?_, hagree.classes, fun i => ?_⟩ <;> rw [hframe]

theorem MembersAdded.nestedClausesOwn (h : p.MembersAdded q) (hp : p.Consistent)
    (hknown : p.NamesKnown) (hown : p.NestedClausesOwn) : q.NestedClausesOwn := by
  intro f decl hdecl outer d defn houter hd hdefn hkind
  by_cases hf : f.index < p.functions.size
  · obtain ⟨decl0, hdecl0⟩ := exists_of_lt hf
    cases hdecl.symm.trans (h.functions hdecl0)
    obtain ⟨defn0, hdefn0⟩ := exists_of_lt ((hknown hdecl0 _ hd).2 d rfl)
    cases hdefn.symm.trans (h.definitions hdefn0)
    rw [h.scopes.scopeFunction hp (hp.defn hdefn0).scope]
    exact hown hdecl0 (h.enclosing hf ▸ houter) hd hdefn0 hkind
  · cases houter.symm.trans (h.new hdecl (Nat.le_of_not_lt hf)).1

theorem Conversion.others (h : p.Conversion p1 u needed c plan p2 q) : q.others = p.others :=
  h.converted.recoded.others.trans
    (h.recorded.builds.changes.others.trans h.resolved.recoded.others)

theorem Conversion.complete (h : p.Conversion p1 u needed c plan p2 q) (hp : p.Complete) :
    q.Complete := by
  have hclass : ∀ {i : Nat} {cls : ClassDecl}, q.classes[i]? = some cls → cls.origin = .declared →
      p.classes[i]? = some cls := by
    intro i cls hcls horigin
    rw [h.converted.recoded.classes] at hcls
    by_cases hi : i < p1.classes.size
    · obtain ⟨cls1, hcls1⟩ := exists_of_lt hi
      cases hcls.symm.trans (h.recorded.builds.changes.class_eq hcls1 nofun)
      rw [← h.resolved.recoded.classes]
      exact hcls1
    · have hrecord := List.mem_of_getElem? (MadeFor.origin (k := ⟨i⟩)
        ⟨Nat.le_of_not_lt hi, cls, hcls, horigin⟩ h.recorded.origins)
      simp [Captures.origins] at hrecord
  refine ⟨fun hcls horigin => hp.initializer (hclass hcls horigin) horigin,
    fun hcls horigin => hp.constructors (hclass hcls horigin) horigin, ?_⟩
  have hinit : q.initFunction = p.initFunction := congrArg (·.2.2.2) h.others
  rw [hinit]
  exact hp.globals

theorem compile_eq_ok : p.compile options = .ok q ↔ ∃ r, Pass.prepare.Gives p () r ∧
      (Pass.generateCode options).Gives r () q ∧
        (options.verify = true → verifyProgram q = .ok ()) := by
  have hrun : p.compile options = .ok q ↔ (Pass.compileAll options).Gives p () q := by
    unfold compile EStateM.run Pass.Gives
    cases Pass.compileAll options p with
    | ok _ r => exact ⟨fun h => by cases h; rfl, fun h => by cases h; rfl⟩
    | error => exact ⟨fun h => (by cases h), fun h => (by cases h)⟩
  rw [hrun]
  unfold Pass.compileAll
  simp only [gives_bind]
  constructor
  · rintro ⟨_, r, hprepare, _, q', hcode, hverify⟩
    obtain ⟨rfl, hpasses⟩ := gives_verification.mp hverify
    exact ⟨r, hprepare, hcode, hpasses⟩
  · rintro ⟨r, hprepare, hcode, hverify⟩
    exact ⟨(), r, hprepare, (), q, hcode, gives_verification.mpr ⟨rfl, hverify⟩⟩

theorem Conversion.definitions_ne (h : p.Conversion p1 u needed c plan p2 q)
    (hd : p.Captured d s) : q.definitions ≠ p.definitions := by
  rw [h.converted.recoded.definitions, ← h.resolved.recoded.definitions]
  have hd1 := h.resolved.captured hd
  obtain ⟨defn, c, _, hdefn, hfield, _⟩ := h.livesIn hd1
  intro heq
  rw [heq] at hdefn
  by_cases hparam : p1.IsParam d
  · exact (h.slot_fresh hd1 hparam).not_gt (lt_of_get hdefn)
  · obtain ⟨⟨defn', hdefn', hkind⟩, _⟩ := hd1
    rw [h.slot_of_not_param hparam, hdefn'] at hdefn
    cases hdefn
    rcases hkind with hkind | hkind <;> cases hkind.symm.trans hfield

/-! ## Compilations -/

/-- What the stages of a compilation lead to. -/
structure Compilation (options : CompileOptions) (p p1 p2 p3 q : Program) : Prop where
  members : p.MembersAdded p1
  converted : ∃ r u needed c plan r', p1.Conversion r u needed c plan r' p2
  flattened : Pass.flattenClasses.Gives p2 () p3
  lowered : (Pass.generateCode options).Gives p3 () q
  verified : options.verify = true → verifyProgram q = .ok ()

theorem compilation_of_compile (hp : Constructed p)
    (h : p.compile options = .ok q) : ∃ p1 p2 p3, Compilation options p p1 p2 p3 q := by
  obtain ⟨p3, hprepare, hcode, hverify⟩ := compile_eq_ok.mp h
  obtain ⟨_, p1, hmembers, hprepare⟩ := gives_bind.mp hprepare
  obtain ⟨_, p2, hconvert, hflatten⟩ := gives_bind.mp hprepare
  have hadded := synthesizeMembers_gives hp.source hp.shaped hmembers
  obtain ⟨r, u, needed, c, plan, r', _, _, _, hconversion⟩ :=
    convertClosures_gives hadded.consistent hconvert
  exact ⟨p1, p2, p3, hadded, ⟨r, u, needed, c, plan, r', hconversion⟩, hflatten, hcode, hverify⟩

namespace Compilation

variable {p3 : Program} (h : Compilation options p p1 p2 p3 q)
include h

theorem consistent : p2.Consistent := by
  obtain ⟨_, _, _, _, _, _, hconversion⟩ := h.converted
  exact hconversion.converted.recoded.consistent hconversion.recorded.builds.consistent

theorem numbered : p2.ClassesNumbered := fun _ _ hcls => (h.consistent.cls hcls).id

theorem annotates : p2.Annotates q :=
  (Annotates.of_flattenClasses h.flattened h.numbered).trans (.of_source (generateCode_source h.lowered))

theorem complete : q.Complete := by
  obtain ⟨_, _, _, _, _, _, hconversion⟩ := h.converted
  exact h.annotates.complete (hconversion.complete h.members.complete)

theorem strings : p3.strings = p.strings := by
  obtain ⟨_, _, _, _, _, _, hconversion⟩ := h.converted
  have hstrings : p2.strings = p1.strings := congrArg (·.2.2.1) hconversion.others
  rw [frame_of_flattenClasses h.flattened, hstrings, h.members.strings]

theorem closureFree (hp : Constructed p) (hown : p.NestedClausesOwn) : q.ClosureFree := by
  obtain ⟨_, _, _, _, _, _, hconversion⟩ := h.converted
  exact h.annotates.closureFree (hconversion.closureFree h.members.consistent
    (h.members.namesKnown hp.source.namesKnown)
    (h.members.nestedClausesOwn hp.source.consistent hp.source.namesKnown hown))

theorem lowered_again (hp : Constructed p) : (Pass.generateCode options).Gives q () q := by
  have hconsistent := (Annotates.of_flattenClasses h.flattened h.numbered).consistent h.consistent
  refine generateCode_again (fun hdecl => (hconsistent.function hdecl).id) ?_ h.lowered
  rw [h.strings, hp.source.strings]
  exact .nil

theorem compile_ne (hd : q.Captured d s) : q.compile options ≠ .ok q := by
  intro hagain
  obtain ⟨q3, hprepare, hcode, _⟩ := compile_eq_ok.mp hagain
  obtain ⟨_, q1, hmembers, hprepare⟩ := gives_bind.mp hprepare
  obtain ⟨_, q2, hconvert, hflatten⟩ := gives_bind.mp hprepare
  have hconsistent := h.annotates.consistent h.consistent
  obtain ⟨_, rfl⟩ := (synthesizeMembers_idle hconsistent h.complete).unique hmembers
  obtain ⟨_, _, _, _, _, _, _, _, _, hconversion⟩ := convertClosures_gives hconsistent hconvert
  have hflat : q3.definitions = q2.definitions := by rw [frame_of_flattenClasses hflatten]
  refine hconversion.definitions_ne hd ?_
  rw [← hflat, source_definitions (generateCode_source hcode)]

end Compilation

end Program

/-- A compiled program is compiled to itself. -/
theorem compiled_programs_stay {p q : Program} {options : CompileOptions} (hp : Constructed p)
    (hown : p.NestedClausesOwn) (h : p.compile options = .ok q) : q.compile options = .ok q := by
  obtain ⟨_, _, _, h⟩ := Program.compilation_of_compile hp h
  have hfree := h.closureFree hp hown
  refine Program.compile_eq_ok.mpr ⟨q, ?_, h.lowered_again hp, h.verified⟩
  refine Pass.gives_bind.mpr ⟨(), q, ?_, Pass.gives_bind.mpr ⟨(), q, ?_, ?_⟩⟩
  · exact Pass.synthesizeMembers_idle hfree.consistent h.complete
  · exact Pass.convertClosures_idle hfree
  · exact flattenClasses_again h.flattened h.numbered (generateCode_source h.lowered)

/-! A nested function that is called, used as a value, and uses a variable of the function around
it: `f() { var x; fun h = x; h; h() }`. -/

def Program.nesting : Program :=
  .built [
    .function "f" .i64, .localVar ⟨10⟩ "x" .i64 true, .nestedFunction ⟨10⟩ "h" .i64,
    .body ⟨11⟩ (.variable .i64 ⟨14⟩),
    .body ⟨10⟩ (.mkBlock [.function ⟨11⟩, .expr (.mkFunctionValue ⟨11⟩),
      .expr (.call .i64 ⟨11⟩ [] [])])]

theorem compiled_programs_stay_nesting : Constructed .nesting ∧ Program.nesting.NestedClausesOwn ∧
    ∃ q, Program.nesting.compile .standard = .ok q ∧ q.compile .standard = .ok q := by
  have hp : Constructed .nesting := .built (by decide +kernel)
  have hown : Program.nesting.NestedClausesOwn := by decide +kernel
  have hcompiles : (Program.nesting.compile .standard).toOption.isSome = true := by cbv
  obtain ⟨q, hq⟩ := Option.isSome_iff_exists.mp hcompiles
  have hq := Checked.eq_ok_of_toOption hq
  exact ⟨hp, hown, q, hq, compiled_programs_stay hp hown hq⟩

/-- The local that a nested function binds its exception to is captured once more. -/
theorem rebound_exception_recompiled :
    Constructed .rebinding ∧ ∃ q, Program.rebinding.compile .standard = .ok q ∧
      q.compile .standard ≠ .ok q := by
  have hp : Constructed .rebinding := .built (by decide +kernel)
  have hview : (Program.rebinding.compile .standard).toOption.map (fun q => (q.bodyAtoms ⟨11⟩,
      (q.definitions[16]?).map fun defn => (defn.kind, (q.scopeFunction defn.scope).toOption))) =
      some ([.catches ⟨16⟩, .variable ⟨16⟩, .variable ⟨22⟩, .variable ⟨22⟩],
        some (.localVar, some (some ⟨10⟩))) := by cbv
  obtain ⟨q, hq, hview⟩ := Option.map_eq_some_iff.mp hview
  have hq := Checked.eq_ok_of_toOption hq
  obtain ⟨hatoms, hdefn⟩ := Prod.mk.inj hview
  obtain ⟨defn, hdefn, hkind⟩ := Option.map_eq_some_iff.mp hdefn
  obtain ⟨hkind, hscope⟩ := Prod.mk.inj hkind
  have hcaptured : q.Captured ⟨16⟩ defn.scope := by
    refine ⟨⟨defn, hdefn, .inr hkind⟩, ⟨11⟩, ⟨10⟩, ?_, ⟨defn, hdefn, rfl, ?_⟩, by decide⟩
    · rw [hatoms]
      simp
    · exact Checked.eq_ok_of_toOption hscope
  obtain ⟨_, _, _, h⟩ := Program.compilation_of_compile hp hq
  exact ⟨hp, q, hq, h.compile_ne hcaptured⟩

end StackBackend
