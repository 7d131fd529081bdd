import StackBackend.Closure.Records
import StackBackend.Proofs.Closure.Needs

/-! The order in which enclosing functions are listed. Capture analysis goes through the list once,
for the functions nested in another one, and joins what they need to a set. Everything else looks
functions up. So neither the result nor an error depends on the order of the list, and records are
added in the same way. -/

namespace StackBackend

open Checked
open Program (Needs)

variable {p : Program} {u u' : Usage} {closures : RefSet .functions} {f g : FunctionId}
  {needed : RefMap .functions (RefSet .scopes)} {direct : List ScopeId}

/-- The same uses, with enclosing functions listed in another order. -/
structure Usage.Reordered (u u' : Usage) : Prop where
  uses : u'.uses = u.uses
  caught : u'.caught = u.caught
  parents : u'.parents.entries.Perm u.parents.entries
  nodup : u.parents.keys.Nodup

namespace Usage.Reordered

section

variable (h : u.Reordered u')
include h

theorem nodup' : u'.parents.keys.Nodup := (h.parents.map Prod.fst).nodup_iff.mpr h.nodup

theorem find? (f : FunctionId) : u'.parents.find? f = u.parents.find? f :=
  Option.ext fun _ =>
    ⟨fun hg => RefMap.find?_of_mem h.nodup (h.parents.mem_iff.mp (RefMap.mem_of_find? hg)),
      fun hg => RefMap.find?_of_mem h.nodup' (h.parents.mem_iff.mpr (RefMap.mem_of_find? hg))⟩

theorem ancestorsOf (f : FunctionId) : u'.ancestorsOf f = u.ancestorsOf f := by
  have hsame : ∀ n f, ancestors u'.parents n f = ancestors u.parents n f := by
    intro n
    induction n with
    | zero => exact fun _ => rfl
    | succ n ih => intro f; simp only [ancestors, h.find?, ih]
  rw [Usage.ancestorsOf, Usage.ancestorsOf, h.parents.length_eq, hsame]

theorem innermostFirst : u'.innermostFirst = u.innermostFirst := by
  have hdepth : u'.depthOf = u.depthOf := funext fun f => congrArg List.length (h.ancestorsOf f)
  rw [Usage.innermostFirst, Usage.innermostFirst, hdepth, h.uses]

theorem foreignClosure? (f g : FunctionId) :
    p.foreignClosure? u' closures f g = p.foreignClosure? u closures f g := by
  simp only [Program.foreignClosure?, h.find?]

theorem directNeeds (f : FunctionId) (uses : Uses) :
    p.directNeeds u' closures f uses = p.directNeeds u closures f uses := by
  simp only [Program.directNeeds, Program.requireEnclosing, h.ancestorsOf, h.foreignClosure?]

/-! ## Needs -/

theorem nestedNeeds (hscopes : ∀ {g s}, Needs needed g s → (p.scopeFunction s).Answers) :
    (do pure (needed.insert f (.ofList (direct ++ (← p.nestedNeeds u' needed f))))) =
      (do pure (needed.insert f (.ofList (direct ++ (← p.nestedNeeds u needed f)))) : Checked _) := by
  obtain ⟨nested, hnested⟩ := Program.nestedNeeds_answers (u := u) (f := f) hscopes
  obtain ⟨nested', hnested'⟩ := Program.nestedNeeds_answers (u := u') (f := f) hscopes
  have hset : RefSet.ofList (direct ++ nested') = .ofList (direct ++ nested) := by
    refine RefSet.eq_of_perm ((List.perm_ext_iff_of_nodup (RefSet.nodup _) (RefSet.nodup _)).mpr ?_)
    intro s
    simp only [RefSet.mem_ofList, List.mem_append, Program.mem_nestedNeeds h.nodup hnested,
      Program.mem_nestedNeeds h.nodup' hnested', h.find?]
  rw [hnested, hnested']
  exact congrArg (fun scopes => Except.ok (needed.insert f scopes)) hset

variable (hparents : ∀ {f g}, u.parents.find? f = some g → p.enclosingFunction f = .ok (some g))
include hparents

omit h in
theorem answers_of_mem_directNeeds {uses : Uses} (hdirect : p.directNeeds u closures f uses = .ok direct)
    {s : ScopeId} (hs : s ∈ direct) : (p.scopeFunction s).Answers := by
  obtain ⟨forVariables, hvars, hdirect⟩ := bind_eq_ok.mp hdirect
  obtain ⟨forClosures, hclosures, hdirect⟩ := bind_eq_ok.mp hdirect
  cases hdirect
  rcases List.mem_append.mp hs with hs | hs
  · obtain ⟨d, _, owner, hd⟩ := ((Program.requireEnclosing_bind hvars).1 s).mp hs
    obtain ⟨⟨_, _, _, howner⟩, _⟩ := Program.foreignHome?_eq.mp hd
    exact ⟨_, howner⟩
  · obtain ⟨g, _, owner, hg⟩ := ((Program.requireEnclosing_bind hclosures).1 s).mp hs
    obtain ⟨_, hparent, hhome, _⟩ := Program.foreignClosure?_eq.mp hg
    have howner := hparents hparent
    rw [Program.enclosingFunction, hhome] at howner
    exact ⟨_, howner⟩

theorem neededContexts (closures : RefSet .functions) :
    p.neededContexts u' closures = p.neededContexts u closures := by
  rw [Program.neededContexts, Program.neededContexts, h.innermostFirst]
  refine foldlM_congr (I := fun needed => ∀ {g s}, Needs needed g s → (p.scopeFunction s).Answers)
    ?_ ?_ _ ?_
  · intro needed f hscopes
    simp only [h.uses, h.directNeeds]
    refine congrArg (_ >>= ·) (funext fun direct => ?_)
    exact h.nestedNeeds hscopes
  · intro needed f needed' hscopes hstep g s hs
    obtain ⟨direct, hdirect, hstep⟩ := bind_eq_ok.mp hstep
    obtain ⟨nested, hnested, hstep⟩ := bind_eq_ok.mp hstep
    cases hstep
    by_cases hg : g = f
    · subst hg
      obtain ⟨scopes, hfound, hs⟩ := hs
      rw [RefMap.find?_insert_self] at hfound
      cases hfound
      rcases List.mem_append.mp (RefSet.mem_ofList.mp hs) with hs | hs
      · exact answers_of_mem_directNeeds hparents hdirect hs
      · obtain ⟨_, _, _, o, ho, _⟩ := (Program.mem_nestedNeeds h.nodup hnested).mp hs
        exact ⟨o, ho⟩
    · exact hscopes ((Program.needs_insert_ne hg).mp hs)
  · rintro g s ⟨_, hfound, _⟩
    cases hfound

theorem saturate (rounds : Nat) : ∀ closures,
    p.saturate u' rounds closures = p.saturate u rounds closures := by
  have hneedy : Program.withNeedy u' = Program.withNeedy u := by
    funext needed closures
    simp only [Program.withNeedy, RefMap.contains, h.find?]
  induction rounds with
  | zero => intro closures; rw [Program.saturate, Program.saturate, h.neededContexts hparents]
  | succ rounds ih =>
    intro closures
    rw [Program.saturate, Program.saturate, h.neededContexts hparents, hneedy]
    simp only [ih]

theorem capturesOf : p.capturesOf u' =
    (fun c => { c with parents := u'.parents }) <$> p.capturesOf u := by
  have hcontains : u'.parents.contains = u.parents.contains :=
    funext fun f => congrArg Option.isSome (h.find? f)
  have hcaptured : ∀ closures, p.capturedBy u' closures = p.capturedBy u closures := by
    intro closures
    funext captured entry
    simp only [Program.capturedBy, h.foreignClosure?]
  simp only [Program.capturesOf, valueUses, h.uses, hcontains, h.parents.length_eq,
    h.saturate hparents, hcaptured, h.caught, map_bind, map_pure]

end

end Usage.Reordered

/-- Enclosing functions are looked up under the functions that they enclose. -/
theorem Usage.parents_of_ofProgram (h : ofProgram p = .ok u) : u.parents.keys.Nodup ∧
    ∀ {f g}, u.parents.find? f = some g → p.enclosingFunction f = .ok (some g) := by
  have hkeeps : u.parents.Sorted ∧
      ∀ {f g}, u.parents.find? f = some g → p.enclosingFunction f = .ok (some g) := by
    refine foldlM_keeps (I := fun _ u => u.parents.Sorted ∧
      ∀ {f g}, u.parents.find? f = some g → p.enclosingFunction f = .ok (some g)) _ [] h
      ⟨RefMap.sorted_empty, nofun⟩ ?_
    rintro _ decl _ u u' _ ⟨hsorted, hparents⟩ hstep
    rw [Program.addFunction_eq_ok] at hstep
    cases hbody : decl.body with
    | none =>
      rw [hbody] at hstep
      exact hstep ▸ ⟨hsorted, hparents⟩
    | some body =>
      rw [hbody] at hstep
      obtain ⟨us, o, _, ho, rfl⟩ := hstep
      cases o with
      | none => exact ⟨hsorted, hparents⟩
      | some parent => exact ⟨hsorted.insert _ _, RefMap.forall_find?_insert ho hparents⟩
  exact ⟨hkeeps.1.nodup_keys, hkeeps.2⟩

/-! ## Records -/

namespace ClosurePlan

/-- The plan, with another list of enclosing functions. -/
def listing (m : RefMap .functions FunctionId) (plan : ClosurePlan) : ClosurePlan :=
  { plan with captures := { plan.captures with parents := m } }

end ClosurePlan

namespace Pass

open ClosurePlan (listing)

variable {m : RefMap .functions FunctionId}

theorem foldlM_map {α β : Type} {g : β → β} {step : β → α → Pass β}
    (h : ∀ b x, step (g b) x = g <$> step b x) (xs : List α) :
    ∀ b, xs.foldlM step (g b) = g <$> xs.foldlM step b := by
  induction xs with
  | nil => intro b; simp
  | cons x rest ih => intro b; simp [h, ih]

theorem map_stopUnreachable {α β : Type} {g : α → β} {function name : String} {s : ScopeId} :
    g <$> (stopUnreachable function s name : Pass α) = stopUnreachable function s name := by
  rw [stopUnreachable, map_bind]
  rfl

theorem captureVariable_listing (shell : ContextShell) (plan : ClosurePlan) (d : DefnId) :
    captureVariable shell (plan.listing m) d = listing m <$> captureVariable shell plan d := by
  unfold captureVariable
  rw [map_bind]
  refine congrArg (_ >>= ·) (funext fun defn => ?_)
  split
  · simp [listing]
  · change (if plan.captures.caught.contains d = true then _ else _) = _
    split <;> simp [listing]

theorem captureClosure_listing (shells : List ClosureShell) (shell : ContextShell)
    (plan : ClosurePlan) (f : FunctionId) :
    captureClosure shells shell (plan.listing m) f = listing m <$> captureClosure shells shell plan f := by
  unfold captureClosure
  cases shells.find? (·.function = f) <;> simp [listing, map_stopUnreachable]

theorem fillContext_listing (shells : List ClosureShell) (plan : ClosurePlan) (shell : ContextShell) :
    fillContext shells (plan.listing m) shell = listing m <$> fillContext shells plan shell := by
  simp only [fillContext, map_bind]
  refine congrArg (_ >>= ·) (funext fun ty => congrArg (_ >>= ·) (funext fun localVar => ?_))
  rw [foldlM_map (captureVariable_listing shell), bind_map_left]
  refine congrArg (_ >>= ·) (funext fun plan => ?_)
  rw [foldlM_map (captureClosure_listing shells shell), bind_map_left]
  simp [listing]

theorem addContextField_listing (shell : ClosureShell) (constructor : FunctionId) (plan : ClosurePlan)
    (position : Nat) (s : ScopeId) : addContextField shell constructor (plan.listing m) position s =
      listing m <$> addContextField shell constructor plan position s := by
  unfold addContextField
  rw [show (plan.listing m).contexts.find? s = plan.contexts.find? s from rfl]
  cases plan.contexts.find? s <;> simp [listing, map_stopUnreachable]

theorem addContextFields_listing (shell : ClosureShell) (constructor : FunctionId)
    (scopes : List ScopeId) : ∀ position plan,
      addContextFields shell constructor position scopes (listing m plan) =
        listing m <$> addContextFields shell constructor position scopes plan := by
  induction scopes with
  | nil => intro position plan; simp [addContextFields]
  | cons s rest ih => intro position plan; simp [addContextFields, addContextField_listing, ih]

theorem fillClosure_listing (plan : ClosurePlan) (shell : ClosureShell) :
    fillClosure (plan.listing m) shell = listing m <$> fillClosure plan shell := by
  simp only [fillClosure, map_bind]
  refine congrArg (_ >>= ·) (funext fun ty => congrArg (_ >>= ·) (funext fun constructor => ?_))
  refine congrArg (_ >>= ·) (funext fun function => ?_)
  rw [addContextFields_listing, bind_map_left]
  simp [listing, closureVariable]

theorem addValueClass_listing (plan : ClosurePlan) (f : FunctionId) :
    addValueClass (plan.listing m) f = listing m <$> addValueClass plan f := by
  simp [addValueClass, listing]

theorem addRecords_listing {c : Captures} (hm : ∀ f, m.find? f = c.parents.find? f) :
    addRecords { c with parents := m } = listing m <$> addRecords c := by
  have hshell : addClosureShell { c with parents := m } = addClosureShell c := by
    funext f
    simp only [addClosureShell, hm]
  simp only [addRecords, hshell, map_bind]
  refine congrArg (_ >>= ·) (funext fun contexts => congrArg (_ >>= ·) (funext fun shells => ?_))
  rw [show ClosurePlan.ofCaptures { c with parents := m } = listing m (.ofCaptures c) from rfl,
    foldlM_map (fillContext_listing shells), bind_map_left]
  refine congrArg (_ >>= ·) (funext fun plan => ?_)
  rw [foldlM_map fillClosure_listing, bind_map_left]
  exact congrArg (_ >>= ·) (funext fun plan => foldlM_map addValueClass_listing _ plan)

end Pass

/-- In whatever order enclosing functions are listed, capture analysis finds the same captured
variables, closures, values, needs and variables of clauses, or ends in the same error, and the same
records are added for it. -/
theorem captures_ignore_order {entries : List (FunctionId × FunctionId)}
    (hu : Usage.ofProgram p = .ok u) (hentries : entries.Perm u.parents.entries) :
    p.capturesOf { u with parents := ⟨entries⟩ } =
      (fun c => { c with parents := ⟨entries⟩ }) <$> p.capturesOf u ∧
    ∀ c, p.capturesOf u = .ok c → Pass.addRecords { c with parents := ⟨entries⟩ } =
      ClosurePlan.listing ⟨entries⟩ <$> Pass.addRecords c := by
  obtain ⟨hnodup, hparents⟩ := Usage.parents_of_ofProgram hu
  have hreordered : u.Reordered { u with parents := ⟨entries⟩ } := ⟨rfl, rfl, hentries, hnodup⟩
  refine ⟨hreordered.capturesOf hparents, fun c hc => Pass.addRecords_listing fun f => ?_⟩
  have hkept : c.parents = u.parents := by
    obtain ⟨_, _, hc⟩ := bind_eq_ok.mp hc
    obtain ⟨_, _, hc⟩ := bind_eq_ok.mp hc
    obtain ⟨_, _, hc⟩ := bind_eq_ok.mp hc
    obtain ⟨_, _, hc⟩ := bind_eq_ok.mp hc
    cases hc
    rfl
  rw [hkept]
  exact hreordered.find? f

def Program.twins : Program :=
  { Program.empty with
    scopes := #[⟨⟨0⟩, none, .global, .empty⟩, ⟨⟨1⟩, some ⟨0⟩, .function ⟨0⟩, .empty⟩,
      ⟨⟨2⟩, some ⟨1⟩, .function ⟨1⟩, .empty⟩, ⟨⟨3⟩, some ⟨1⟩, .function ⟨2⟩, .empty⟩]
    functions := #[inScope 0 "f", inScope 1 "g", inScope 2 "h"] }
where
  inScope (i : Nat) (name : String) : FunctionDecl :=
    { id := ⟨i⟩, name, kind := .global, scope := ⟨i + 1⟩, returnTy := .unit, typeParams := [], params := [],
      body := some (.mkBlock []), chain := none, isBuiltin := false, isFinal := false, lowered := none }

theorem captures_ignore_order_twins : ∃ u, Usage.ofProgram Program.twins = .ok u ∧
    u.parents.entries = [(⟨1⟩, ⟨0⟩), (⟨2⟩, ⟨0⟩)] ∧
    Program.twins.capturesOf { u with parents := ⟨[(⟨2⟩, ⟨0⟩), (⟨1⟩, ⟨0⟩)]⟩ } =
      (fun c => { c with parents := ⟨[(⟨2⟩, ⟨0⟩), (⟨1⟩, ⟨0⟩)]⟩ }) <$> Program.twins.capturesOf u := by
  obtain ⟨u, hu, hentries⟩ : ∃ u, Usage.ofProgram Program.twins = .ok u ∧
      u.parents.entries = [(⟨1⟩, ⟨0⟩), (⟨2⟩, ⟨0⟩)] := ⟨_, rfl, rfl⟩
  refine ⟨u, hu, hentries, (captures_ignore_order hu ?_).1⟩
  rw [hentries]
  exact .swap ..

end StackBackend
