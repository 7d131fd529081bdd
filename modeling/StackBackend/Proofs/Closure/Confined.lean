import Mathlib
import StackBackend.Proofs.Closure.Converted
import StackBackend.Proofs.Closure.ConvertedNodes
import StackBackend.Proofs.Program.Construction

/-! No body reaches into the frame of a function around it once closures are converted. What
a body then names comes from what it named before, or from the records, whose locals and receivers
belong to the functions that use them. Only the local that takes an exception for a captured
variable may be misplaced: the clause has to be in the function of its variable. -/

namespace StackBackend

open List (mem_singleton mem_flatMap all_eq_true mem_map mem_singleton_self)

variable {s scope : ScopeId} {e : Expr} {decl : FunctionDecl} {g : FunctionId}
  {closure : ClosureClass}

def Atom.function? : Atom → Option FunctionId
  | .invokeSelf f | .call f | .value f | .function f => some f
  | .self | .variable _ | .declare _ | .catches _ => none

def Atom.defn? : Atom → Option DefnId
  | .variable d | .declare d | .catches d => some d
  | .self | .invokeSelf _ | .call _ | .value _ | .function _ => none

def Atom.caught? : Atom → Option DefnId
  | .catches d => some d
  | _ => none

namespace Program

variable {p p1 p2 q : Program} {u : Usage} {needed : RefMap .functions (RefSet .scopes)}
  {c : Captures} {plan : ClosurePlan} {f : FunctionId} {d : DefnId} {t : ScopeId} {a : Atom}

/-- The definition is a variable of the function, or a global. -/
def InOwnFrame (p : Program) (f : FunctionId) (d : DefnId) : Prop :=
  ∃ defn, p.definitions[d.index]? = some defn ∧ (∀ c, defn.kind ≠ .field c) ∧
    (defn.kind = .parameter ∨ defn.kind = .localVar → p.scopeFunction defn.scope = .ok (some f))

/-- What a body may name after conversion, given the program before it. -/
def Confined (p q : Program) (f : FunctionId) : Atom → Prop
  | .self | .invokeSelf _ | .function _ => False
  | .value g => ∃ decl, p.functions[g.index]? = some decl ∧ decl.kind ≠ .global
  | .variable d => q.InOwnFrame f d
  | .call _ | .declare _ | .catches _ => True

def ClausesOwn (p : Program) : Prop :=
  ∀ ⦃f d defn⦄, .catches d ∈ p.bodyAtoms f → p.definitions[d.index]? = some defn →
    defn.kind = .localVar → p.scopeFunction defn.scope = .ok (some f)

theorem scopeFunction_iff :
    p.scopeFunction s = .ok (some f) ↔ (p.scopeFunction s).toOption = some (some f) :=
  ⟨fun h => by rw [h]; rfl, Checked.eq_ok_of_toOption⟩

instance {s : ScopeId} : Decidable (p.scopeFunction s = .ok (some f)) :=
  decidable_of_iff _ scopeFunction_iff.symm

theorem forall_bodyAtoms_iff {P : FunctionId → Atom → Prop} : (∀ f, ∀ a ∈ p.bodyAtoms f, P f a) ↔
    ∀ i < p.functions.size, ∀ a ∈ p.bodyAtoms ⟨i⟩, P ⟨i⟩ a := by
  refine ⟨fun h i _ => h ⟨i⟩, fun h f a ha => ?_⟩
  obtain ⟨body, hbody, _⟩ := mem_bodyAtoms.mp ha
  obtain ⟨decl, hdecl, _⟩ := bodyOf?_eq.mp hbody
  exact h f.index (lt_of_get hdecl) a ha

theorem clausesOwn_iff : p.ClausesOwn ↔ ∀ f, ∀ a ∈ p.bodyAtoms f, ∀ d ∈ a.caught?,
    ∀ defn ∈ p.definitions[d.index]?, defn.kind = .localVar →
      p.scopeFunction defn.scope = .ok (some f) := by
  constructor
  · intro h f a ha d hd defn hdefn hkind
    cases a <;> cases hd
    exact h ha hdefn hkind
  · intro h f d defn hd hdefn hkind
    exact h f _ hd d rfl defn hdefn hkind

instance : Decidable p.ClausesOwn :=
  decidable_of_iff _ (clausesOwn_iff.trans forall_bodyAtoms_iff).symm

theorem IsLocal.inOwnFrame (h : p.IsLocal d s) (hs : p.scopeFunction s = .ok (some f)) :
    p.InOwnFrame f d := by
  obtain ⟨defn, hdefn, hkind, rfl⟩ := h
  exact ⟨defn, hdefn, fun _ hfield => (nomatch hkind.symm.trans hfield), fun _ => hs⟩

theorem IsLocal.not_stored (h : p.IsLocal d t) :
    d.index < p.definitions.size ∧ ∀ s, ¬ p.IsFieldOf d (.context s) := by
  obtain ⟨defn, hdefn, hkind, _⟩ := h
  refine ⟨lt_of_get hdefn, fun s hs => ?_⟩
  obtain ⟨_, _, _, hdefn', hfield, _⟩ := hs
  cases hdefn.symm.trans hdefn'
  cases hkind.symm.trans hfield

theorem IsParameter.inOwnFrame (h : p.IsParameter d s)
    (hs : p.scopeFunction s = .ok (some f)) : p.InOwnFrame f d := by
  obtain ⟨defn, hdefn, hkind, rfl⟩ := h
  exact ⟨defn, hdefn, fun _ hfield => (nomatch hkind.symm.trans hfield), fun _ => hs⟩

theorem Recoded.inOwnFrame (h : p.Recoded q) : q.InOwnFrame f d ↔ p.InOwnFrame f d := by
  unfold InOwnFrame
  simp only [h.definitions, h.scopeFunction]

/-! ## What is known -/

def Knows (p : Program) (a : Atom) : Prop :=
  (∀ g ∈ a.function?, g.index < p.functions.size) ∧ ∀ d ∈ a.defn?, d.index < p.definitions.size

def NamesKnown (p : Program) : Prop :=
  ∀ ⦃f : FunctionId⦄ ⦃decl : FunctionDecl⦄, p.functions[f.index]? = some decl →
    ∀ a ∈ decl.atoms, p.Knows a

theorem knows_of_knownIn (he : e.knownIn p = true) (ha : a ∈ e.atoms) : p.Knows a := by
  obtain ⟨n, hn, ha⟩ := mem_flatMap.mp ha
  have hknown := all_eq_true.mp he n hn
  rw [Node.knownIn, Bool.and_eq_true, all_eq_true, all_eq_true] at hknown
  obtain ⟨hmentions, hdefns⟩ := hknown
  have hfunction : ∀ g, .function g ∈ n.mentions → g.index < p.functions.size := fun g hg =>
    of_decide_eq_true (hmentions _ hg)
  have hdefn : ∀ d ∈ n.defns, d.index < p.definitions.size := fun d hd =>
    of_decide_eq_true (hdefns d hd)
  cases n with
  | expr e =>
    cases e <;> simp_all [Node.atoms, Expr.ownAtoms, Knows, Atom.function?, Atom.defn?,
      Node.mentions, Expr.ownMentions, Node.defns]
  | stmt s =>
    cases s <;> simp_all [Node.atoms, Knows, Atom.function?, Atom.defn?, Node.mentions, Node.defns]
  | clause clause =>
    obtain ⟨d, hd, rfl⟩ := mem_map.mp ha
    exact ⟨by simp [Atom.function?], fun _ hd' => by cases hd'; exact hdefn d hd⟩

theorem Source.namesKnown (hp : p.Source) : p.NamesKnown := by
  intro f decl hdecl a ha
  obtain ⟨e, he, ha⟩ := mem_atomsOfArgs.mp ha
  exact knows_of_knownIn (hp.code hdecl e he) ha

/-! ## Receivers -/

theorem isField_eq {defn : Definition} (hd : p.definitions[d.index]? = some defn) :
    p.isField d = false ↔ ∀ c, defn.kind ≠ .field c := by
  unfold isField
  rw [hd]
  cases hkind : defn.kind <;> simp [hkind]

theorem Resolved.not_implicit (hp : p.Consistent) (h : p.Resolved q)
    (hdecl : q.functions[f.index]? = some decl) (ha : a ∈ decl.atoms) : p.isImplicit a = false := by
  have hf : f.index < p.functions.size := h.recoded.size ▸ lt_of_get hdecl
  obtain ⟨decl0, hdecl0, hresolves⟩ := h.function_of hdecl
  rcases hresolves.atoms ha with ⟨_, himp⟩ | ⟨d, hd, rfl, _⟩
  · exact himp
  · obtain ⟨g, outer, _, houter, hreceiver⟩ := receiverWithin_sound hp _ hf hd
    obtain ⟨_, _, hhead⟩ := Option.bind_eq_some_iff.mp hreceiver
    obtain ⟨defn, hdefn, hkind, _⟩ := (hp.function houter).params d (List.mem_of_head? hhead)
    exact (isField_eq hdefn).mpr fun _ hfield => nomatch hkind.symm.trans hfield

theorem Resolved.value (h : p.Resolved q) (hg : .value g ∈ q.bodyAtoms f) :
    ∃ decl, p.functions[f.index]? = some decl ∧ .value g ∈ decl.atoms := by
  obtain ⟨body, hbody, hg⟩ := mem_bodyAtoms.mp hg
  obtain ⟨decl, hdecl, hbody⟩ := bodyOf?_eq.mp hbody
  obtain ⟨decl0, hdecl0, hresolves⟩ := h.function_of hdecl
  have hmem : Atom.value g ∈ decl.atoms := mem_atomsOfArgs.mpr
    ⟨body, List.mem_append_left _ (Option.mem_toList.mpr hbody), hg⟩
  rcases hresolves.atoms hmem with ⟨hmem, _⟩ | ⟨d, _, heq, _⟩
  · exact ⟨decl0, hdecl0, hmem⟩
  · cases heq

theorem Resolved.body_of (h : p.Resolved q) {body : Expr} (hbody : q.bodyOf? f = some body) :
    ∃ body0, p.bodyOf? f = some body0 ∧
      (body = body0 ∨ ∃ ty d, body = p.explicitReceiver (.variable ty d) body0) := by
  obtain ⟨decl, hdecl, hbody⟩ := bodyOf?_eq.mp hbody
  obtain ⟨decl0, hdecl0, hresolves⟩ := h.function_of hdecl
  cases hresolves with
  | same _ => exact ⟨body, bodyOf?_eq.mpr ⟨decl, hdecl0, hbody⟩, .inl rfl⟩
  | explicit _ _ _ =>
    obtain ⟨body0, hbody0, rfl⟩ := Option.map_eq_some_iff.mp hbody
    exact ⟨body0, bodyOf?_eq.mpr ⟨decl0, hdecl0, hbody0⟩, .inr ⟨_, _, rfl⟩⟩

theorem Resolved.body (h : p.Resolved q) {body0 : Expr} (hbody0 : p.bodyOf? f = some body0) :
    ∃ body, q.bodyOf? f = some body ∧
      (body = body0 ∨ ∃ ty d, body = p.explicitReceiver (.variable ty d) body0) := by
  obtain ⟨decl0, hdecl0, hbody0⟩ := bodyOf?_eq.mp hbody0
  obtain ⟨decl, hdecl, hresolves⟩ := h.function hdecl0
  cases hresolves with
  | same _ => exact ⟨body0, bodyOf?_eq.mpr ⟨decl0, hdecl, hbody0⟩, .inl rfl⟩
  | explicit _ _ _ =>
    exact ⟨_, bodyOf?_eq.mpr ⟨_, hdecl, Option.map_eq_some_iff.mpr ⟨body0, hbody0, rfl⟩⟩,
      .inr ⟨_, _, rfl⟩⟩

theorem Resolved.named (h : p.Resolved q) (ha : a ∈ q.bodyAtoms f) :
    a ∈ p.bodyAtoms f ∨ ∃ d, a = .variable d := by
  obtain ⟨body, hbody, ha⟩ := mem_bodyAtoms.mp ha
  obtain ⟨body0, hbody0, rfl | ⟨ty, d, rfl⟩⟩ := h.body_of hbody
  · exact .inl (mem_bodyAtoms.mpr ⟨body, hbody0, ha⟩)
  · rcases mem_explicitReceiver.mp ha with ⟨ha, _⟩ | ⟨ha, _⟩
    · exact .inl (mem_bodyAtoms.mpr ⟨body0, hbody0, ha⟩)
    · exact .inr ⟨d, ha⟩

theorem Resolved.variable (hp : p.Consistent) (h : p.Resolved q)
    (hdecl : q.functions[f.index]? = some decl) (hd : .variable d ∈ decl.atoms) :
    ∃ defn, p.definitions[d.index]? = some defn ∧ ∀ c, defn.kind ≠ .field c := by
  have himp := h.not_implicit hp hdecl hd
  suffices hlt : d.index < p.definitions.size by
    obtain ⟨defn, hdefn⟩ := exists_of_lt hlt
    exact ⟨defn, hdefn, (isField_eq hdefn).mp himp⟩
  have hf : f.index < p.functions.size := h.recoded.size ▸ lt_of_get hdecl
  obtain ⟨decl0, hdecl0, hresolves⟩ := h.function_of hdecl
  rcases hresolves.atoms hd with ⟨hmem, _⟩ | ⟨d', hd', heq, _⟩
  · exact h.known hdecl0 d hmem
  · cases heq
    obtain ⟨g, outer, _, houter, hreceiver⟩ := receiverWithin_sound hp _ hf hd'
    obtain ⟨_, _, hhead⟩ := Option.bind_eq_some_iff.mp hreceiver
    obtain ⟨defn, hdefn, _⟩ := (hp.function houter).params d (List.mem_of_head? hhead)
    exact lt_of_get hdefn

theorem mem_atoms_of_body (ha : a ∈ p.bodyAtoms f) :
    ∃ decl, p.functions[f.index]? = some decl ∧ a ∈ decl.atoms := by
  obtain ⟨body, hbody, ha⟩ := mem_bodyAtoms.mp ha
  obtain ⟨decl, hdecl, hbody⟩ := bodyOf?_eq.mp hbody
  exact ⟨decl, hdecl, mem_atomsOfArgs.mpr
    ⟨body, List.mem_append_left _ (Option.mem_toList.mpr hbody), ha⟩⟩

/-! ## Places -/

theorem IsFieldOf.origin_unique {o o' : ClassOrigin} (h : p.IsFieldOf d o) (h' : p.IsFieldOf d o') :
    o = o' := by
  obtain ⟨_, _, _, hdefn, hkind, hcls, rfl⟩ := h
  obtain ⟨_, _, _, hdefn', hkind', hcls', rfl⟩ := h'
  cases hdefn.symm.trans hdefn'
  cases hkind.symm.trans hkind'
  cases hcls.symm.trans hcls'
  rfl

theorem LivesIn.home_unique (hs : p.LivesIn plan d s) (ht : p.LivesIn plan d t) : s = t :=
  ClassOrigin.context.inj (hs.origin_unique ht)

theorem Recorded.slot_of_param (h : p.Recorded c plan q) (hd : c.captured.Holds s (.variable d))
    (hparam : p.IsParam d) : plan.paramFields.find? d = some (plan.slot d) := by
  obtain ⟨k, hk⟩ := h.paramFields hd hparam
  rw [ClosurePlan.slot, hk]
  rfl

theorem CapturesOf.home_unique (hc : p.CapturesOf u needed c)
    (hs : c.captured.Holds s (.variable d))
    (ht : c.captured.Holds t (.variable d)) : s = t := by
  cases (hc.holds s _).mp hs with
  | «variable» _ _ hhome =>
    cases (hc.holds t _).mp ht with
    | «variable» _ _ hhome' =>
      obtain ⟨defn, hdefn, rfl, _⟩ := hhome
      obtain ⟨defn', hdefn', rfl, _⟩ := hhome'
      cases hdefn.symm.trans hdefn'
      rfl

theorem Recorded.livesIn (hc : p.CapturesOf u needed c) (h : p.Recorded c plan q)
    (hd : c.captured.Holds s (.variable d)) : q.LivesIn plan d s := by
  by_cases hparam : p.IsParam d
  · obtain ⟨_, _, t, ht, hfield⟩ := h.planned.paramFields (h.slot_of_param hd hparam)
    rw [hc.home_unique hd ht]
    exact hfield
  · obtain ⟨_, _, t, ht, hfield⟩ := h.moved ⟨hparam, s, hd⟩
    rw [hc.home_unique hd ht, LivesIn, h.planned.slot_of_not_param hparam]
    exact hfield

/-! ## Code before conversion -/

theorem Recorded.function (h : p1.Recorded c plan p2)
    (hdecl : p1.functions[f.index]? = some decl) : ∃ kind typeParams params,
      p2.functions[f.index]? = some { decl with kind, typeParams, params } := by
  by_cases hf : f ∈ c.closures.toList
  · obtain ⟨closure, hclosure⟩ := h.closures f hf
    obtain ⟨decl', _, _, hdecl', hmethod, _⟩ := (h.planned.closures hclosure).method
    cases hdecl.symm.trans hdecl'
    exact ⟨_, _, _, hmethod⟩
  · exact ⟨decl.kind, decl.typeParams, decl.params, h.builds.changes.function_eq hdecl hf⟩

/-- What a function names when the records are there: what it named before, or what a
forwarding method passes on. -/
inductive NamedBefore (p1 : Program) (c : Captures) (p2 : Program) (scope : ScopeId)
    (named : List Atom) : Atom → Prop where
  | code {a : Atom} (mem : a ∈ named) : NamedBefore p1 c p2 scope named a
  | forwards {g : FunctionId} (value : g ∈ c.values.toList) : NamedBefore p1 c p2 scope named (.call g)
  | passes {d : DefnId} (fresh : p1.definitions.size ≤ d.index)
    (isParameter : p2.IsParameter d scope) : NamedBefore p1 c p2 scope named (.variable d)

theorem Recorded.named (h : p1.Recorded c plan p2) {body : Expr}
    (hdecl : p2.functions[f.index]? = some decl) (hbody : decl.body = some body)
    (ha : a ∈ body.atoms) : p1.NamedBefore c p2 decl.scope (p1.bodyAtoms f) a := by
  by_cases hf : f.index < p1.functions.size
  · obtain ⟨decl1, hdecl1⟩ := exists_of_lt hf
    obtain ⟨kind, typeParams, params, hdecl'⟩ := h.function hdecl1
    cases hdecl.symm.trans hdecl'
    exact .code (mem_bodyAtoms.mpr ⟨body, bodyOf?_eq.mpr ⟨decl1, hdecl1, hbody⟩, ha⟩)
  · cases h.functions hdecl (Nat.le_of_not_lt hf) with
    | constructor hinert _ =>
      cases hbody.symm.trans hinert
      cases ha
    | forwarder hinert _ hvalue hargs =>
      cases hbody.symm.trans hinert
      rcases List.mem_cons.mp ha with rfl | ha
      · exact .forwards hvalue
      · obtain ⟨e, he, ha⟩ := mem_atomsOfArgs.mp ha
        obtain ⟨ty, d, rfl, hfresh, hparam⟩ := hargs e he
        cases mem_singleton.mp ha
        exact .passes hfresh hparam

/-! ## Code after conversion -/

/-- A node of a converted body: one of the converted code, or a captured parameter that is
copied on entry. -/
inductive BodyNode (p : Program) (plan : ClosurePlan) (f : FunctionId) (decl : FunctionDecl)
    (before : List Node) : Node → Prop where
  | code {n : Node} (after : p.NodeAfter plan f false before n) : BodyNode p plan f decl before n
  | copied {ty : Ty} {d k : DefnId} (param : d ∈ decl.params)
    (captured : plan.paramFields.find? d = some k) :
    BodyNode p plan f decl before (.expr (.variable ty d))

section

variable {before : List Node} {context : ContextClass}

theorem all_prepend {P : Node → Prop} {stmts : List Stmt} (hs : AllStmts P stmts)
    (he : e.All P) (hblock : ∀ ty stmts, P (.expr (.block ty stmts))) (hstmt : P (.stmt (.expr e))) :
    (ConversionSite.prepend stmts e).All P := by
  have hwrap : (Expr.block e.ty (stmts ++ [.expr e])).All P :=
    Expr.all_block.mpr ⟨hblock _ _, allStmts_append.mpr
      ⟨hs, allStmts_expr.mpr ⟨hstmt, he, allStmts_nil⟩⟩⟩
  cases e with
  | block ty rest =>
    exact Expr.all_block.mpr ⟨hblock _ _, allStmts_append.mpr ⟨hs, (Expr.all_block.mp he).2⟩⟩
  | _ => exact hwrap

theorem allStmts_copies (hs : p.scopeFunction decl.scope = .ok (some f))
    (hcontext : plan.contexts.find? decl.scope = some context) {params : List DefnId}
    {copies : List Stmt} (h : plan.CopiesParams context params copies)
    (hparams : ∀ d ∈ params, d ∈ decl.params) :
    AllStmts (p.BodyNode plan f decl before) copies := by
  induction h with
  | nil => exact allStmts_nil
  | skip _ _ ih => exact ih fun d hd => hparams d (.tail _ hd)
  | copy hcaptured _ ih =>
    refine allStmts_expr.mpr ⟨.code (.neutral rfl nofun), Expr.all_initField.mpr
      ⟨.code (.neutral rfl nofun), Expr.all_variable.mpr (.copied ?_ hcaptured),
        Expr.all_variable.mpr (.code (.context hs hcontext))⟩,
      ih fun d hd => hparams d (.tail _ hd)⟩
    exact hparams _ (.head _)

theorem BodyConverts.all (hs : p.scopeFunction decl.scope = .ok (some f)) {body body' : Expr}
    (h : p.BodyConverts plan f decl body body') : body'.All (p.BodyNode plan f decl body.nodes) := by
  obtain ⟨e, hconverts, henters⟩ := h
  have he : e.All (p.BodyNode plan f decl body.nodes) := fun n hn =>
    .code ((converts_nodes p plan f false body.nodes).exprs body (fun _ h => h) e hconverts n hn)
  cases henters with
  | same _ => exact he
  | context hcontext hcopies =>
    refine all_prepend (allStmts_define.mpr ⟨.code (.declareContext hcontext), ?_, ?_⟩) he
      (fun _ _ => .code (.neutral rfl nofun)) (.code (.neutral rfl nofun))
    · exact Expr.all_new.mpr ⟨.code (.newContext hcontext), allArgs_nil⟩
    · exact allStmts_copies hs hcontext hcopies fun _ hd => hd

end

/-! ## What converted code names -/

/-- Clauses of a nested function, among what is named, bind locals of its own. -/
def OwnClauses (p : Program) (f : FunctionId) (named : List Atom) : Prop :=
  ∀ ⦃outer d defn⦄, p.enclosingFunction f = .ok (some outer) → .catches d ∈ named →
    p.definitions[d.index]? = some defn → defn.kind = .localVar →
      p.scopeFunction defn.scope = .ok (some f)

theorem Recoded.ownClauses (h : p.Recoded q) {named named' : List Atom}
    (hown : p.OwnClauses f named)
    (hsub : ∀ d, .catches d ∈ named' → .catches d ∈ named) : q.OwnClauses f named' := by
  intro outer d defn houter hd hdefn hkind
  rw [h.enclosingFunction] at houter
  rw [h.definitions] at hdefn
  rw [h.scopeFunction]
  exact hown houter (hsub d hd) hdefn hkind

/-- What converted code may name, of what was named before. -/
def Settled (p : Program) (plan : ClosurePlan) (f : FunctionId) (named : List Atom) : Atom → Prop
  | .self | .invokeSelf _ | .function _ => False
  | .variable d => p.InOwnFrame f d
  | .declare d => d.index < p.definitions.size ∧ ∀ s, ¬ p.IsFieldOf d (.context s)
  | .value g => .value g ∈ named ∧ plan.values.find? g = none ∧ plan.closures.find? g = none
  | .call _ | .catches _ => True

namespace Conversion

variable (hp : p.Consistent) (h : p.Conversion p1 u needed c plan p2 q) {named : List Atom}

section

include hp h

theorem consistent₁ : p1.Consistent := h.resolved.recoded.consistent hp

theorem inOwnFrame_of_kept
    (hcode : ∀ b ∈ named, ∃ decl, p1.functions[f.index]? = some decl ∧ b ∈ decl.atoms)
    (hd : p1.NamedBefore c p2 scope named (.variable d))
    (hfree : ∀ s, ¬ p2.LivesIn plan d s) (hframe : p2.InFrame f d) : p2.InOwnFrame f d := by
  cases hd with
  | passes _ hparam =>
    obtain ⟨defn, hdefn, hkind, hscope⟩ := hparam
    exact IsParameter.inOwnFrame ⟨defn, hdefn, hkind, rfl⟩ (hframe hdefn (.inl hkind))
  | code hd =>
    obtain ⟨decl, hdecl, hd⟩ := hcode _ hd
    obtain ⟨defn, hdefn, hfield⟩ := h.resolved.variable hp hdecl hd
    rw [← h.resolved.recoded.definitions] at hdefn
    have hstays : ¬ p1.Moves c d := by
      intro hmoves
      obtain ⟨hparam, _, s, _, hs⟩ := h.recorded.moved hmoves
      refine hfree s ?_
      rw [LivesIn, h.recorded.planned.slot_of_not_param hparam]
      exact hs
    have hdefn2 := h.recorded.builds.changes.defn_eq hdefn hstays
    exact ⟨defn, hdefn2, hfield, hframe hdefn2⟩

omit hp in
theorem inOwnFrame_of_early {k : DefnId} (hk : plan.paramFields.find? d = some k)
    (hhome : p2.LivesIn plan d s) (hs : p2.scopeFunction s = .ok (some f)) : p2.InOwnFrame f d := by
  obtain ⟨hparam, _, t, hheld, _⟩ := h.recorded.planned.paramFields hk
  cases (h.recorded.livesIn h.captures hheld).home_unique hhome
  cases (h.captures.holds s _).mp hheld with
  | «variable» _ _ hcaptured _ =>
    obtain ⟨defn, hdefn, hkind⟩ := id hparam
    obtain ⟨defn', hdefn', rfl, _⟩ := hcaptured
    cases hdefn.symm.trans hdefn'
    have hdefn2 := h.recorded.builds.changes.defn_eq hdefn fun hmoves => hmoves.1 hparam
    exact IsParameter.inOwnFrame ⟨defn, hdefn2, hkind, rfl⟩ hs

omit hp in
theorem inOwnFrame_of_closureVar (hg : plan.closures.find? g = some closure)
    (hfree : ∀ s, ¬ p2.LivesIn plan closure.var s)
    (hframe : p2.InFrame f closure.var) : p2.InOwnFrame f closure.var := by
  have hclosure := h.recorded.planned.closures hg
  cases hclosure.held with
  | @field s _ hfield =>
    refine absurd ?_ (hfree s)
    rw [LivesIn, h.recorded.planned.slot_of_fresh hclosure.freshVar]
    exact hfield
  | localVar _ _ hlocal =>
    obtain ⟨defn, hdefn, hkind, _⟩ := hlocal
    exact IsLocal.inOwnFrame ⟨defn, hdefn, hkind, rfl⟩ (hframe hdefn (.inr hkind))

omit hp in
theorem inOwnFrame_of_receiver (hf : plan.closures.find? f = some closure) :
    p2.InOwnFrame f closure.receiver := by
  obtain ⟨decl, hdecl, hparam⟩ := (h.recorded.planned.closures hf).receiver
  obtain ⟨kind, typeParams, params, hdecl2⟩ := h.recorded.function hdecl
  have hscope := scopeFunction_function h.recorded.builds.consistent hdecl2
  exact hparam.inOwnFrame hscope

/-- The local that takes an exception belongs to the function of the variable. That is this one
unless it is nested: only a closure gets at the contexts of others. -/
theorem inOwnFrame_of_temp {temp : DefnId} {context : Expr} (hown : p1.OwnClauses f named)
    (hd : .catches d ∈ named) (htemp : plan.caught.find? d = some temp)
    (hhome : p2.LivesIn plan d s) (hpath : p2.Denotes plan f s context) : p2.InOwnFrame f temp := by
  obtain ⟨hparam, _, t, hheld, hlocal⟩ := h.recorded.planned.caught htemp
  cases (h.recorded.livesIn h.captures hheld).home_unique hhome
  refine hlocal.inOwnFrame ?_
  cases hpath with
  | own howner _ => exact howner
  | held _ hclosure _ =>
    obtain ⟨outer, _, houter⟩ := h.captures.parent (h.recorded.planned.closures hclosure).isClosure
    cases (h.captures.holds s _).mp hheld with
    | «variable» _ hvar hcaptured _ =>
      obtain ⟨defn, hdefn, rfl, _⟩ := hcaptured
      have hkind : defn.kind = .localVar := by
        obtain ⟨defn', hdefn', hkind⟩ := hvar
        cases hdefn.symm.trans hdefn'
        exact hkind.resolve_left fun hparam' => hparam ⟨defn, hdefn, hparam'⟩
      have hscope := ((consistent₁ hp h).defn hdefn).scope
      rw [h.recorded.builds.changes.scopes.scopeFunction (consistent₁ hp h) hscope]
      exact hown houter hd hdefn hkind

omit hp in
theorem not_stored_of_free (hd : d.index < p1.definitions.size)
    (hfree : ∀ s, ¬ p2.LivesIn plan d s) :
    d.index < p2.definitions.size ∧ ∀ s, ¬ p2.IsFieldOf d (.context s) := by
  refine ⟨hd.trans_le h.recorded.builds.changes.defns_le, fun s hs => ?_⟩
  by_cases hparam : p1.IsParam d
  · obtain ⟨defn, hdefn, hkind⟩ := id hparam
    have hdefn2 := h.recorded.builds.changes.defn_eq hdefn fun hmoves => hmoves.1 hparam
    obtain ⟨_, _, _, hdefn', hfield, _⟩ := hs
    cases hdefn2.symm.trans hdefn'
    cases hkind.symm.trans hfield
  · refine hfree s ?_
    rw [LivesIn, h.recorded.planned.slot_of_not_param hparam]
    exact hs

theorem settled_of_nodeAfter {before : List Node} {inChain : Bool} {n : Node}
    (hcode : ∀ b ∈ named, ∃ decl, p1.functions[f.index]? = some decl ∧ b ∈ decl.atoms)
    (hknown : ∀ d, .declare d ∈ named → d.index < p1.definitions.size)
    (hown : p1.OwnClauses f named)
    (hbefore : ∀ m ∈ before, ∀ b ∈ m.atoms, p1.NamedBefore c p2 scope named b)
    (hn : p2.NodeAfter plan f inChain before n) (ha : a ∈ n.atoms) : p2.Settled plan f named a := by
  have hexplicit : ∀ {m b}, m ∈ before → b ∈ m.atoms → b = .self ∨ (∃ g, b = .invokeSelf g) →
      False := by
    intro m b hm hb hself
    cases hbefore m hm b hb with
    | code hmem =>
      obtain ⟨decl1, hdecl1, hb⟩ := hcode b hmem
      have himp := h.resolved.not_implicit hp hdecl1 hb
      rcases hself with rfl | ⟨g, rfl⟩ <;> cases himp
    | forwards _ | passes _ _ => rcases hself with hself | ⟨_, hself⟩ <;> cases hself
  cases hn with
  | @plain e parts hmem _ hleaves hlength =>
    have ha : a ∈ e.ownAtoms := (Expr.withParts_eq hlength).2.1 ▸ ha
    cases e with
    | «variable» ty d => exact hleaves.elim
    | self ty => exact (hexplicit hmem ha (.inl (mem_singleton.mp ha))).elim
    | invokeSelf ty g typeArgs args =>
      exact (hexplicit hmem ha (.inr ⟨g, mem_singleton.mp ha⟩)).elim
    | call ty g typeArgs args => cases mem_singleton.mp ha; trivial
    | functionValue ty g =>
      cases mem_singleton.mp ha
      cases hbefore _ hmem _ (mem_singleton_self _) with
      | code hg => exact ⟨hg, hleaves⟩
    | _ => cases ha
  | neutral hatoms _ => rw [hatoms] at ha; cases ha
  | «variable» hmem hstays =>
    cases mem_singleton.mp ha
    cases hstays with
    | early _ hk hhome hs => exact inOwnFrame_of_early h hk hhome hs
    | kept hfree hframe =>
      exact inOwnFrame_of_kept hp h hcode (hbefore _ hmem _ (mem_singleton_self _)) hfree hframe
  | closureVar hclosure hstays =>
    cases mem_singleton.mp ha
    cases hstays with
    | early _ hk hhome hs => exact inOwnFrame_of_early h hk hhome hs
    | kept hfree hframe => exact inOwnFrame_of_closureVar h hclosure hfree hframe
  | context howner hholds =>
    cases mem_singleton.mp ha
    exact (h.recorded.planned.contexts hholds).localVar.inOwnFrame howner
  | receiver hclosure =>
    cases mem_singleton.mp ha
    exact inOwnFrame_of_receiver h hclosure
  | temp hmem htaken hhome hpath =>
    cases mem_singleton.mp ha
    cases hbefore _ hmem _ (mem_singleton_self _) with
    | code hd => exact inOwnFrame_of_temp hp h hown hd htaken hhome hpath
  | newValue | newContext | newClosure => cases ha
  | declare hmem hfree =>
    cases mem_singleton.mp ha
    cases hbefore _ hmem _ (mem_singleton_self _) with
    | code hd => exact not_stored_of_free h (hknown _ hd) hfree
  | declareContext hholds =>
    cases mem_singleton.mp ha
    exact (h.recorded.planned.contexts hholds).localVar.not_stored
  | declareClosure hclosure hfree =>
    cases mem_singleton.mp ha
    have hplanned := h.recorded.planned.closures hclosure
    cases hplanned.held with
    | localVar _ _ hlocal => exact hlocal.not_stored
    | @field s _ hfield =>
      refine absurd ?_ (hfree s)
      rw [LivesIn, h.recorded.planned.slot_of_fresh hplanned.freshVar]
      exact hfield
  | clause | clauseTemp => obtain ⟨_, _, rfl⟩ := mem_map.mp ha; trivial

omit hp in
theorem not_global_of_value (hdecl : p1.functions[g.index]? = some decl)
    (hg : .value g ∈ p1.bodyAtoms f)
    (hvalue : plan.values.find? g = none) (hclosure : plan.closures.find? g = none) :
    u.parents.find? g = none ∧ decl.kind ≠ .global := by
  have hvalues := h.captures.values hg
  by_cases hparent : u.parents.contains g = true
  · rw [if_pos hparent] at hvalues
    obtain ⟨closure, hsome⟩ := h.recorded.closures g hvalues
    cases hclosure.symm.trans hsome
  · rw [if_neg hparent] at hvalues
    have hnone : u.parents.find? g = none := by simpa [RefMap.contains] using hparent
    refine ⟨hnone, fun hkind => ?_⟩
    obtain ⟨value, hsome⟩ := h.recorded.values g (hvalues.mpr ⟨hnone, decl, hdecl, hkind⟩)
    cases hvalue.symm.trans hsome

omit hp in
theorem member_of_value (hknown : p.NamesKnown) (hg : .value g ∈ p1.bodyAtoms f)
    (hvalue : plan.values.find? g = none) (hclosure : plan.closures.find? g = none) :
    u.parents.find? g = none ∧ ∃ decl, p.functions[g.index]? = some decl ∧ decl.kind ≠ .global := by
  have hlt : g.index < p.functions.size := by
    obtain ⟨decl, hdecl, hg⟩ := h.resolved.value hg
    exact (hknown hdecl _ hg).1 g rfl
  obtain ⟨decl, hdecl⟩ := exists_of_lt hlt
  obtain ⟨body, chain, hdecl1⟩ := h.resolved.recoded.functions hdecl
  obtain ⟨hnone, hkind⟩ := h.not_global_of_value hdecl1 hg hvalue hclosure
  exact ⟨hnone, decl, hdecl, hkind⟩

omit hp in
theorem body_of {body : Expr} (hbody : q.bodyOf? f = some body) : ∃ decl body2,
    p2.functions[f.index]? = some decl ∧ decl.body = some body2 ∧
      p2.BodyConverts plan f decl body2 body := by
  obtain ⟨decl', hdecl', hbody⟩ := bodyOf?_eq.mp hbody
  obtain ⟨decl, hdecl⟩ := exists_of_lt (h.converted.recoded.size ▸ lt_of_get hdecl')
  obtain ⟨decl'', hdecl'', hconverts⟩ := h.converted.function hdecl
  cases hdecl'.symm.trans hdecl''
  have hbodies := hconverts.body
  rw [hbody] at hbodies
  generalize hbody2 : decl.body = body2 at hbodies
  cases hbodies with | some hbodies
  exact ⟨decl, _, hdecl, hbody2, hbodies⟩

theorem settled_body (hknown : p.NamesKnown) (hown : p1.OwnClauses f (p1.bodyAtoms f))
    (ha : a ∈ q.bodyAtoms f) : p2.Settled plan f (p1.bodyAtoms f) a := by
  obtain ⟨body, hbody, ha⟩ := mem_bodyAtoms.mp ha
  obtain ⟨decl2, body2, hdecl2, hbody2, hbodies⟩ := h.body_of hbody
  have hscope := scopeFunction_function h.recorded.builds.consistent hdecl2
  have hdeclared : ∀ d, .declare d ∈ p1.bodyAtoms f → d.index < p1.definitions.size := by
    intro d hd
    obtain ⟨decl, hdecl, hmem⟩ := mem_atoms_of_body ((h.resolved.named hd).resolve_right nofun)
    rw [h.resolved.recoded.definitions]
    exact (hknown hdecl _ hmem).2 d rfl
  obtain ⟨n, hn, ha⟩ := mem_flatMap.mp ha
  cases hbodies.all hscope n hn with
  | code hafter =>
    exact settled_of_nodeAfter hp h (fun b hb => mem_atoms_of_body hb) hdeclared hown
      (fun m hm b hb => h.recorded.named hdecl2 hbody2 (mem_flatMap.mpr ⟨m, hm, hb⟩)) hafter ha
  | copied hparam _ =>
    cases mem_singleton.mp ha
    exact ((h.recorded.builds.consistent.function hdecl2).params _ hparam).inOwnFrame hscope

theorem confined (hknown : p.NamesKnown) (hown : p.ClausesOwn) (ha : a ∈ q.bodyAtoms f) :
    p.Confined q f a := by
  have hown1 : p1.OwnClauses f (p1.bodyAtoms f) :=
    h.resolved.recoded.ownClauses (fun _ _ _ _ hd hdefn hkind => hown hd hdefn hkind)
      fun _ hd => (h.resolved.named hd).resolve_right nofun
  have hsettled := settled_body hp h hknown hown1 ha
  cases a with
  | self | invokeSelf | function => exact hsettled
  | «variable» d => exact h.converted.recoded.inOwnFrame.mpr hsettled
  | value g =>
    obtain ⟨hg, hvalue, hclosure⟩ := hsettled
    exact (member_of_value h hknown hg hvalue hclosure).2
  | call | declare | catches => trivial

end

end Conversion

end Program

/-- Converted bodies use neither the implicit receiver nor nested functions, no function at the
top level or nested in another is a value, no variable is a field, and each is a variable of
the function it is used in. -/
theorem converted_bodies_confined {p q : Program} (hp : Constructed p) (hown : p.ClausesOwn)
    (h : Pass.convertClosures.Gives p () q) :
    ∀ (f : FunctionId), ∀ a ∈ q.bodyAtoms f, p.Confined q f a := by
  obtain ⟨_, _, _, _, _, _, _, _, _, hconversion⟩ :=
    Pass.convertClosures_gives hp.source.consistent h
  exact fun f a ha => hconversion.confined hp.source.consistent hp.source.namesKnown hown ha

/-! A method whose nested function uses a field, a parameter, a variable of a clause and itself:
`m(x) { fun g = { throw e; n + x }; try { g() } catch (e) { g } }`. -/

def Program.sharing : Program :=
  let call : Expr := .call .i64 ⟨11⟩ [] []
  .built [
    .cls "C", .field ⟨4⟩ "n" .i64 true none, .method ⟨4⟩ "m" .unit, .param ⟨10⟩ "x" .i64 false,
    .localVar ⟨10⟩ "e" (.ofClass exceptionClass) true, .nestedFunction ⟨10⟩ "g" .i64,
    .body ⟨11⟩ (.mkBlock [.expr (.mkThrow (.variable (.ofClass exceptionClass) ⟨17⟩)),
      .expr (.mkBinary .add (.variable .i64 ⟨14⟩) (.variable .i64 ⟨16⟩))]),
    .body ⟨10⟩ (.mkBlock [.function ⟨11⟩,
      .expr (.mkAttempt call [.mk (some ⟨17⟩) none (.mkFunctionValue ⟨11⟩)] none)])]

theorem sharing_constructed : Constructed .sharing := .built (by decide +kernel)

theorem sharing_converts :
    Pass.convertClosures.Gives .sharing () (Pass.convertClosures.left .sharing) :=
  Pass.gives_left (by cbv)

theorem converted_bodies_confined_sharing : Constructed .sharing ∧ Program.sharing.ClausesOwn ∧
    Pass.convertClosures.Gives .sharing () (Pass.convertClosures.left .sharing) ∧
    ∀ f, ∀ a ∈ (Pass.convertClosures.left .sharing).bodyAtoms f,
      Program.sharing.Confined (Pass.convertClosures.left .sharing) f a := by
  have hown : Program.sharing.ClausesOwn := by decide +kernel
  exact ⟨sharing_constructed, hown, sharing_converts,
    converted_bodies_confined sharing_constructed hown sharing_converts⟩

/-! A nested function that binds an exception to a local of the function around it:
`f() { var e; fun h = try { null } catch (e) { e } }`. -/

def Program.rebinding : Program :=
  .built [
    .function "f" .unit, .localVar ⟨10⟩ "e" (.ofClass exceptionClass) true,
    .nestedFunction ⟨10⟩ "h" (.ofClass exceptionClass),
    .body ⟨11⟩ (.mkAttempt (.ofLiteral .null)
      [.mk (some ⟨14⟩) none (.variable (.ofClass exceptionClass) ⟨14⟩)] none),
    .body ⟨10⟩ (.mkBlock [.function ⟨11⟩])]

/-- The local that takes the exception belongs to the outer function and is used in the inner. -/
theorem rebound_exception_escapes : Constructed .rebinding ∧
    Pass.convertClosures.Gives .rebinding () (Pass.convertClosures.left .rebinding) ∧
    ∃ a ∈ (Pass.convertClosures.left .rebinding).bodyAtoms ⟨11⟩,
      ¬ Program.rebinding.Confined (Pass.convertClosures.left .rebinding) ⟨11⟩ a := by
  obtain ⟨hgives, hview⟩ := Pass.gives_of_view Pass.convertClosures (p := .rebinding)
    (fun q => (q.bodyAtoms ⟨11⟩, (q.definitions[16]?).map fun defn =>
      (defn.kind, (q.scopeFunction defn.scope).toOption)))
    (v := ([.catches ⟨16⟩, .variable ⟨16⟩, .variable ⟨22⟩, .variable ⟨22⟩],
      some (.localVar, some (some ⟨10⟩)))) (by cbv)
  refine ⟨.built (by decide +kernel), hgives, .variable ⟨16⟩, ?_, ?_⟩
  · rw [(Prod.mk.inj hview).1]
    simp
  · rintro ⟨defn, hdefn, -, hscope⟩
    obtain ⟨_, hdefn', hview⟩ := Option.map_eq_some_iff.mp (Prod.mk.inj hview).2
    cases hdefn.symm.trans hdefn'
    obtain ⟨hkind, houter⟩ := Prod.mk.inj hview
    rw [hscope (.inr hkind)] at houter
    exact absurd houter (by decide)

end StackBackend
