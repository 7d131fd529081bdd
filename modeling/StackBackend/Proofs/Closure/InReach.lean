import StackBackend.Proofs.Closure.Converted

/-! Conversion that cannot fail. If every context that the names in a piece of code may lead to
is in reach, then nothing that conversion asks for is missing. -/

namespace StackBackend

open Checked
open List (forall_mem_append mem_singleton_self mem_cons_self)

namespace Program

/-- The context of the scope can be got at in the function. -/
inductive InReach (p : Program) (plan : ClosurePlan) (f : FunctionId) (s : ScopeId) : Prop where
  | own {context : ContextClass} (owner : p.scopeFunction s = .ok (some f))
    (holds : plan.contexts.find? s = some context)
    (known : context.localVar.index < p.definitions.size)
  | held {owner? : Option FunctionId} {closure : ClosureClass} {k : DefnId}
    (owner : p.scopeFunction s = .ok owner?) (foreign : owner? ≠ some f)
    (converted : plan.closures.find? f = some closure) (field : plan.contextField? f s = some k)
    (receiver : closure.receiver.index < p.definitions.size) (known : k.index < p.definitions.size)

theorem InReach.lt_size {p : Program} {plan : ClosurePlan} {f : FunctionId} {s : ScopeId}
    (h : p.InReach plan f s) : s.index < p.scopes.size := by
  cases h with
  | own howner => exact scope_lt_of_scopeFunction howner
  | held howner => exact scope_lt_of_scopeFunction howner

/-- If the variable lives in a context, then that is in reach. -/
structure Storable (p : Program) (plan : ClosurePlan) (f : FunctionId) (d : DefnId) : Prop where
  known : d.index < p.definitions.size
  slot : (plan.slot d).index < p.definitions.size
  reach : ∀ {s}, p.LivesIn plan d s → p.InReach plan f s

structure Usable (p : Program) (plan : ClosurePlan) (f : FunctionId) (d : DefnId) : Prop
    extends p.Storable plan f d where
  frame : (∀ s, ¬ p.LivesIn plan d s) → p.InFrame f d

def Serves (p : Program) (plan : ClosurePlan) (f : FunctionId) : Atom → Prop
  | .self | .invokeSelf _ => True
  | .variable d => p.Usable plan f d
  | .call g | .value g =>
    ∀ {closure}, plan.closures.find? g = some closure → p.Usable plan f closure.var
  | .declare d => p.Storable plan f d
  | .catches d => ∀ {temp}, plan.caught.find? d = some temp →
    p.Storable plan f d ∧ temp.index < p.definitions.size
  | .function g => ∀ {closure}, plan.closures.find? g = some closure →
    g.index < p.functions.size ∧ p.Storable plan f closure.var ∧
      ∀ s ∈ plan.neededBy g, p.InReach plan f s

end Program

namespace ConversionSite

open StackBackend.Convert Program

variable {p : Program} {site : ConversionSite} {d : DefnId} {s : ScopeId} {name : String}
  (hp : p.Consistent) (hsite : p.Recoded site.program)

section

include hsite

theorem load_known (hd : d.index < p.definitions.size) : (site.program.load d).Answers := by
  obtain ⟨defn, hdefn⟩ := exists_of_lt hd
  exact answers_bind (hsite.defnAt.trans (defnAt_eq hdefn)) ⟨_, rfl⟩

theorem contextPath?_answers (hs : p.InReach site.plan site.function s) :
    ∃ e, site.contextPath? s = .ok (some e) := by
  unfold contextPath?
  cases hs with
  | own howner hholds hknown =>
    have howns : site.owns s = .ok true := by
      rw [owns, hsite.scopeFunction, howner]
      exact congrArg Except.ok (decide_eq_true rfl)
    obtain ⟨load, hload⟩ := load_known hsite hknown
    refine ⟨load, bind_eq_ok.mpr ⟨true, howns, ?_⟩⟩
    rw [if_pos rfl, hholds]
    exact bind_eq_ok.mpr ⟨load, hload, rfl⟩
  | @held _ _ k howner hforeign hclosure hfield hreceiver hknown =>
    have howns : site.owns s = .ok false := by
      rw [owns, hsite.scopeFunction, howner]
      exact congrArg Except.ok (decide_eq_false hforeign)
    obtain ⟨defn, hdefn⟩ := exists_of_lt hknown
    obtain ⟨load, hload⟩ := load_known hsite hreceiver
    refine ⟨.field defn.ty load k, bind_eq_ok.mpr ⟨false, howns, ?_⟩⟩
    rw [if_neg Bool.false_ne_true, hclosure, hfield]
    refine bind_eq_ok.mpr ⟨defn, hsite.defnAt.trans (defnAt_eq hdefn), ?_⟩
    exact bind_eq_ok.mpr ⟨load, hload, rfl⟩

theorem yields_contextAccess (hs : p.InReach site.plan site.function s) :
    (site.contextAccess s name).Yields fun o => ∃ e, o = some e := by
  obtain ⟨e, he⟩ := contextPath?_answers hsite hs
  exact yields_lift he (yields_pure ⟨e, rfl⟩)

theorem yields_contextAccesses {scopes : List ScopeId}
    (h : ∀ s ∈ scopes, p.InReach site.plan site.function s) :
    (site.contextAccesses name scopes).Yields fun o => ∃ es, o = some es := by
  induction scopes with
  | nil => exact yields_pure ⟨[], rfl⟩
  | cons s rest ih =>
    refine (yields_contextAccess hsite (h s mem_cons_self)).bind ?_
    rintro _ ⟨e, rfl⟩
    refine (ih fun t ht => h t (.tail _ ht)).bind ?_
    rintro _ ⟨es, rfl⟩
    exact yields_pure ⟨e :: es, rfl⟩

theorem yields_contextMember {ty : Ty} {k : DefnId} (hs : p.InReach site.plan site.function s) :
    (site.contextMember s name ty k).Yields fun _ => True :=
  (yields_contextAccess hsite hs).bind fun _ _ => yields_pure trivial

theorem yields_clauseBody {temp : DefnId} {allocates : Bool} {body : Expr}
    (hd : p.Storable site.plan site.function d) (hs : p.LivesIn site.plan d s)
    (htemp : temp.index < p.definitions.size) :
    (site.clauseBody d temp s allocates body).Yields fun _ => True := by
  obtain ⟨defn, hdefn⟩ := exists_of_lt hd.known
  obtain ⟨load, hload⟩ := load_known hsite htemp
  refine yields_lift (hsite.defnAt.trans (defnAt_eq hdefn))
    ((yields_contextAccess hsite (hd.reach hs)).bind ?_)
  rintro _ ⟨e, rfl⟩
  exact yields_lift hload (yields_pure trivial)

theorem opens_answers {opened : List ScopeId} (hs : s.index < p.scopes.size) :
    (site.opens opened s).Answers := by
  obtain ⟨scope, hscope⟩ := exists_of_lt hs
  exact answers_bind (hsite.scopeAt.trans (scopeAt_eq hscope)) ⟨_, rfl⟩

end

include hp hsite

theorem yields_contextScope? {α : Type} {f : Option ScopeId → Convert α} {Q : α → Prop}
    (hd : (site.plan.slot d).index < p.definitions.size)
    (h : ∀ o, (∀ s, p.LivesIn site.plan d s ↔ o = some s) → (f o).Yields Q) :
    (liftM (site.contextScope? d) >>= f).Yields Q := by
  obtain ⟨o, ho⟩ := contextScope?_answers hsite hp hd
  exact yields_lift ho (h o (contextScope?_eq hsite ho))

theorem owns_answers (hs : s.index < p.scopes.size) : (site.owns s).Answers := by
  obtain ⟨o, ho, _⟩ := scopeFunction_ok hp hs
  exact answers_bind (hsite.scopeFunction.trans ho) ⟨_, rfl⟩

theorem yields_replacement? {ty : Ty} (hd : p.Usable site.plan site.function d) :
    (site.replacement? ty d).Yields fun _ => True := by
  obtain ⟨defn, hdefn⟩ := exists_of_lt hd.known
  refine yields_lift (hsite.defnAt.trans (defnAt_eq hdefn)) (yields_contextScope? hp hsite hd.slot ?_)
  intro o ho
  cases o with
  | some s =>
    have hs := hd.reach ((ho s).mpr rfl)
    cases site.plan.paramFields.find? d with
    | none => exact yields_contextMember hsite hs
    | some k =>
      obtain ⟨b, hb⟩ := owns_answers hp hsite hs.lt_size
      refine yields_lift hb ?_
      by_cases hearly : (site.inChain && b) = true
      · rw [if_pos hearly]
        exact yields_pure trivial
      · rw [if_neg hearly]
        exact yields_contextMember hsite hs
  | none =>
    cases site.plan.paramFields.find? d with
    | some k => exact yields_pure trivial
    | none =>
      have hframe := hd.frame fun s hs => nomatch (ho s).mp hs
      by_cases hkind : (defn.kind = .parameter || defn.kind = .localVar) = true
      · have howner : p.scopeFunction defn.scope = .ok (some site.function) := by
          refine hframe hdefn ?_
          simpa using hkind
        have howns : site.owns defn.scope = .ok true := by
          rw [owns, hsite.scopeFunction, howner]
          exact congrArg Except.ok (decide_eq_true rfl)
        dsimp only
        rw [if_pos hkind]
        exact yields_lift howns (yields_pure trivial)
      · dsimp only
        rw [if_neg hkind]
        exact yields_pure trivial

theorem yields_closureValue? {g : FunctionId} (hg : ∀ {closure},
      site.plan.closures.find? g = some closure → p.Usable site.plan site.function closure.var) :
    (site.closureValue? g).Yields fun _ => True := by
  unfold closureValue?
  cases hclosure : site.plan.closures.find? g with
  | none => exact yields_pure trivial
  | some closure =>
    refine (yields_replacement? hp hsite (hg hclosure)).bind fun o _ => ?_
    cases o with
    | some e => exact yields_pure trivial
    | none => exact yields_get (yields_pure trivial)

theorem yields_declaration {init : Option Expr} (hd : p.Storable site.plan site.function d) :
    (site.declaration d init).Yields fun _ => True := by
  obtain ⟨defn, hdefn⟩ := exists_of_lt hd.known
  refine yields_contextScope? hp hsite hd.slot fun o ho => ?_
  cases o with
  | none => exact yields_pure trivial
  | some s =>
    cases init with
    | none => exact yields_pure trivial
    | some init =>
      refine yields_lift (hsite.defnAt.trans (defnAt_eq hdefn)) ?_
      refine (yields_contextAccess hsite (hd.reach ((ho s).mpr rfl))).bind ?_
      rintro _ ⟨e, rfl⟩
      exact yields_pure trivial

theorem yields_closureAllocation {g : FunctionId}
    (hg : p.Serves site.plan site.function (.function g)) :
    (site.closureAllocation g).Yields fun _ => True := by
  unfold closureAllocation
  cases hclosure : site.plan.closures.find? g with
  | none => exact yields_pure trivial
  | some closure =>
    obtain ⟨hlt, hvar, hneeded⟩ := hg hclosure
    obtain ⟨decl, hdecl⟩ := exists_of_lt hlt
    obtain ⟨_, _, hdecl'⟩ := hsite.functions hdecl
    refine yields_lift (functionAt_eq hdecl') ((yields_contextAccesses hsite hneeded).bind ?_)
    rintro _ ⟨args, rfl⟩
    refine yields_contextScope? hp hsite hvar.slot fun o ho => ?_
    cases o with
    | none => exact yields_pure trivial
    | some s =>
      refine (yields_contextAccess hsite (hvar.reach ((ho s).mpr rfl))).bind ?_
      rintro _ ⟨e, rfl⟩
      exact yields_pure trivial

/-! ## Blocks -/

omit hp hsite in
theorem mem_atomsOfStmts {a : Atom} {stmt : Stmt} {stmts : List Stmt} (hstmt : stmt ∈ stmts)
    (ha : a ∈ Node.atoms (.stmt stmt)) : a ∈ atomsOfStmts stmts := by
  induction stmts with
  | nil => cases hstmt
  | cons first rest ih =>
    rcases List.mem_cons.mp hstmt with rfl | hmem
    · cases stmt with
      | expr e => cases ha
      | declare d init => cases List.mem_singleton.mp ha; cases init <;> exact mem_cons_self
      | function g => cases List.mem_singleton.mp ha; exact mem_cons_self
    · rw [show first :: rest = [first] ++ rest from rfl, atomsOfStmts_append]
      exact List.mem_append_right _ (ih hmem)

theorem declaredInto?_answers {stmt : Stmt}
    (h : ∀ a ∈ Node.atoms (.stmt stmt), p.Serves site.plan site.function a) :
    ∃ o, site.declaredInto? stmt = .ok o ∧ ∀ s ∈ o, s.index < p.scopes.size := by
  have hstorable : ∀ {d}, p.Storable site.plan site.function d →
      ∃ o, site.contextScope? d = .ok o ∧ ∀ s ∈ o, s.index < p.scopes.size := by
    intro d hd
    obtain ⟨o, ho⟩ := contextScope?_answers hsite hp hd.slot
    exact ⟨o, ho, fun s hs => (hd.reach ((contextScope?_eq hsite ho s).mpr hs)).lt_size⟩
  cases stmt with
  | expr e => exact ⟨none, rfl, by simp⟩
  | declare d init => exact hstorable (h _ (mem_singleton_self _))
  | function g =>
    unfold declaredInto?
    dsimp only
    cases hclosure : site.plan.closures.find? g with
    | none => exact ⟨none, rfl, by simp⟩
    | some closure => exact hstorable (h (.function g) (mem_singleton_self _) hclosure).2.1

theorem openedBy_answers {opened : List ScopeId} {stmts : List Stmt}
    (h : ∀ stmt ∈ stmts, ∀ a ∈ Node.atoms (.stmt stmt), p.Serves site.plan site.function a) :
    (site.openedBy opened stmts).Answers := by
  refine foldlM_answers (I := fun _ _ => True) _ [] trivial fun pre stmt post scopes hsplit _ => ?_
  have hmem : stmt ∈ stmts := List.mem_iff_append.mpr ⟨pre, post, hsplit⟩
  obtain ⟨o, ho, hlt⟩ := declaredInto?_answers hp hsite (h stmt hmem)
  cases o with
  | none => exact ⟨scopes, bind_eq_ok.mpr ⟨none, ho, rfl⟩, trivial⟩
  | some s =>
    obtain ⟨b, hb⟩ := @opens_answers p site s hsite opened (hlt s rfl)
    suffices hstep : ∃ scopes', (if (b && !scopes.contains s) = true then pure (scopes ++ [s])
        else pure scopes : Checked (List ScopeId)) = .ok scopes' by
      obtain ⟨scopes', hstep⟩ := hstep
      exact ⟨scopes', bind_eq_ok.mpr ⟨some s, ho, bind_eq_ok.mpr ⟨b, hb, hstep⟩⟩, trivial⟩
    split
    · exact ⟨_, rfl⟩
    · exact ⟨_, rfl⟩

theorem captured?_answers {binding : Option DefnId}
    (h : ∀ d ∈ binding, p.Serves site.plan site.function (.catches d)) :
    (site.captured? binding).Answers := by
  cases binding with
  | none => exact ⟨none, rfl⟩
  | some d =>
    rw [captured?_some]
    cases htemp : site.plan.caught.find? d with
    | none => exact ⟨none, rfl⟩
    | some temp =>
      obtain ⟨o, ho⟩ := contextScope?_answers hsite hp (h d rfl htemp).1.slot
      exact answers_bind ho ⟨_, rfl⟩

/-! ## Code -/

/-- Code whose names are in reach is converted. -/
theorem convert_yields : ExprInduction
    (fun e => (∀ a ∈ e.atoms, p.Serves site.plan site.function a) →
      ∀ opened, (site.convert e opened).Yields fun _ => True)
    (fun args => (∀ a ∈ atomsOfArgs args, p.Serves site.plan site.function a) →
      ∀ opened, (site.convertArgs args opened).Yields fun _ => True)
    (fun stmts => (∀ a ∈ atomsOfStmts stmts, p.Serves site.plan site.function a) →
      ∀ opened, (site.convertStmts stmts opened).Yields fun _ => True)
    (fun clauses => (∀ a ∈ atomsOfClauses clauses, p.Serves site.plan site.function a) →
      ∀ opened, (site.convertClauses clauses opened).Yields fun _ => True) where
  plain e he hparts h opened := by
    rw [Expr.atoms_plain he, forall_mem_append] at h
    by_cases hleaves : site.plan.Leaves e
    · rw [convert_plain he hleaves]
      exact (hparts h.2 opened).bind fun _ _ => yields_pure trivial
    · cases e with
      | «variable» ty d =>
        exact (yields_replacement? hp hsite (h.1 _ (mem_singleton_self _))).bind
          fun _ _ => yields_pure trivial
      | functionValue ty g =>
        rw [convert]
        cases site.plan.values.find? g with
        | some value => exact yields_pure trivial
        | none =>
          exact (yields_closureValue? hp hsite (h.1 (.value g) (mem_singleton_self _))).bind
            fun _ _ => yields_pure trivial
      | call ty g typeArgs args =>
        rw [convert]
        refine (hparts h.2 opened).bind fun args' _ => ?_
        cases site.plan.closures.find? g with
        | none => exact yields_pure trivial
        | some closure =>
          refine (yields_closureValue? hp hsite (h.1 (.call g) (mem_singleton_self _))).bind
            fun o _ => ?_
          cases o with
          | some receiver => exact yields_pure trivial
          | none => exact yields_pure trivial
      | _ => exact absurd trivial hleaves
  block ty stmts hstmts h opened := by
    obtain ⟨entered, hentered⟩ : (site.openedBy opened stmts).Answers :=
      openedBy_answers hp hsite fun stmt hstmt a ha => h a (mem_atomsOfStmts hstmt ha)
    rw [convert]
    exact yields_lift hentered ((hstmts h _).bind fun _ _ => yields_pure trivial)
  attempt ty body clauses hbody hclauses h opened := by
    rw [Expr.atoms_attempt, forall_mem_append] at h
    rw [convert]
    exact (hbody h.1 opened).bind fun _ _ => (hclauses h.2 opened).bind fun _ _ => yields_pure trivial
  cleanup ty body clauses last hbody hclauses hlast h opened := by
    rw [Expr.atoms_cleanup, forall_mem_append, forall_mem_append] at h
    rw [convert]
    exact (hbody h.1 opened).bind fun _ _ => (hclauses h.2.1 opened).bind fun _ _ =>
      (hlast h.2.2 opened).bind fun _ _ => yields_pure trivial
  noArgs _ _ := yields_pure trivial
  arg e rest he hrest h opened := by
    rw [atomsOfArgs_cons, forall_mem_append] at h
    rw [convertArgs]
    exact (he h.1 opened).bind fun _ _ => (hrest h.2 opened).bind fun _ _ => yields_pure trivial
  noStmts _ _ := yields_pure trivial
  expr e rest he hrest h opened := by
    rw [atomsOfStmts_expr, forall_mem_append] at h
    rw [convertStmts]
    exact (he h.1 opened).bind fun _ _ => (hrest h.2 opened).bind fun _ _ => yields_pure trivial
  declare d rest hrest h opened := by
    rw [atomsOfStmts_declare, List.forall_mem_cons] at h
    rw [convertStmts]
    exact (yields_declaration hp hsite h.1).bind fun _ _ => (hrest h.2 opened).bind fun _ _ =>
      yields_pure trivial
  define d init rest hinit hrest h opened := by
    rw [atomsOfStmts_define, List.forall_mem_cons, forall_mem_append] at h
    rw [convertStmts]
    exact (hinit h.2.1 opened).bind fun _ _ => (yields_declaration hp hsite h.1).bind fun _ _ =>
      (hrest h.2.2 opened).bind fun _ _ => yields_pure trivial
  function g rest hrest h opened := by
    rw [atomsOfStmts_function, List.forall_mem_cons] at h
    rw [convertStmts]
    exact (yields_closureAllocation hp hsite h.1).bind fun _ _ => (hrest h.2 opened).bind fun _ _ =>
      yields_pure trivial
  noClauses _ _ := yields_pure trivial
  clause binding guard body rest hbody hrest h opened := by
    rw [atomsOfClauses_cons, forall_mem_append, forall_mem_append] at h
    obtain ⟨hbinding, hbody', hrest'⟩ := h
    have hserves : ∀ d ∈ binding, p.Serves site.plan site.function (.catches d) := fun d hd =>
      hbinding (.catches d) (List.mem_map.mpr ⟨d, Option.mem_toList.mpr hd, rfl⟩)
    obtain ⟨o, ho⟩ := captured?_answers hp hsite hserves
    rw [convertClauses]
    refine yields_lift ho ?_
    rcases captured?_eq hsite ho with ⟨rfl, _⟩ | ⟨d, temp, s, rfl, rfl, htemp, hhome⟩
    · exact (hbody hbody' opened).bind fun _ _ => (hrest hrest' opened).bind fun _ _ =>
        yields_pure trivial
    · obtain ⟨hd, hknown⟩ := hbinding (.catches d) (mem_singleton_self _) htemp
      obtain ⟨b, hb⟩ := @opens_answers p site s hsite opened (hd.reach hhome).lt_size
      exact yields_lift hb ((hbody hbody' _).bind fun _ _ =>
        (yields_clauseBody hsite hd hhome hknown).bind fun _ _ =>
          (hrest hrest' opened).bind fun _ _ => yields_pure trivial)

/-! ## Functions -/

omit hp hsite in
theorem yields_mapM {α β : Type} {f : α → Convert β} {o : Option α}
    (h : ∀ a ∈ o, (f a).Yields fun _ => True) : (o.mapM f).Yields fun _ => True := by
  cases o with
  | none => exact yields_pure trivial
  | some a => exact (h a rfl).bind fun _ _ => yields_pure trivial

theorem prologue_answers {decl : FunctionDecl}
    (hdecl : site.program.functions[site.function.index]? = some decl)
    (hcontexts : ∀ {s context}, site.plan.contexts.find? s = some context →
      context.localVar.index < p.definitions.size) : site.prologue.Answers := by
  refine answers_bind (functionAt_eq hdecl) ?_
  cases hcontext : site.plan.contexts.find? decl.scope with
  | none => exact ⟨none, rfl⟩
  | some context =>
    have hparams := (hsite.consistent hp).function hdecl
    obtain ⟨receiver, hreceiver⟩ := load_known hsite (hcontexts hcontext)
    refine (filterMapM_answers.mpr fun d hd => ?_).elim fun copies hcopies =>
      answers_bind hcopies ⟨_, rfl⟩
    cases site.plan.paramFields.find? d with
    | none => exact ⟨none, rfl⟩
    | some k =>
      obtain ⟨defn, hdefn, _⟩ := hparams.params d hd
      obtain ⟨value, hvalue⟩ := load_known hsite (hsite.definitions ▸ lt_of_get hdefn)
      exact answers_bind hreceiver (answers_bind hvalue ⟨_, rfl⟩)

theorem yields_convertFunction {decl : FunctionDecl}
    (hdecl : site.program.functions[site.function.index]? = some decl)
    (hcontexts : ∀ {s context}, site.plan.contexts.find? s = some context →
      context.localVar.index < p.definitions.size)
    (hserves : ∀ a ∈ decl.atoms, p.Serves site.plan site.function a) :
    (site.convertFunction decl).Yields fun _ => True := by
  have hexprs : ∀ e ∈ decl.exprs, ∀ a ∈ e.atoms, p.Serves site.plan site.function a :=
    fun e he a ha => hserves a (mem_atomsOfArgs.mpr ⟨e, he, ha⟩)
  refine (yields_mapM fun body hbody => ?_).bind fun _ _ =>
    (yields_mapM fun chain hchain => ?_).bind fun _ _ => yields_pure trivial
  · have hatoms := hexprs body (List.mem_append_left _ (Option.mem_toList.mpr hbody))
    obtain ⟨entry, hentry⟩ := prologue_answers hp hsite hdecl hcontexts
    refine ((convert_yields hp hsite).exprs body hatoms []).bind fun e _ => yields_lift hentry ?_
    cases entry with
    | none => exact yields_pure trivial
    | some stmts => exact yields_pure trivial
  · have hatoms : ∀ a ∈ atomsOfArgs chain.call.args, p.Serves site.plan site.function a := by
      intro a ha
      obtain ⟨e, he, ha⟩ := mem_atomsOfArgs.mp ha
      refine hexprs e (List.mem_append_right _ ?_) a ha
      rw [show decl.chain = some chain from hchain]
      exact he
    exact ((@convert_yields p { site with inChain := true } hp hsite).args _ hatoms []).bind
      fun _ _ => yields_pure trivial

end ConversionSite

namespace Pass

open Program

variable {p : Program} {plan : ClosurePlan}

theorem convertFunctions_ensure (hp : p.Consistent) (hcopies : p.CopiesStored plan)
    (hcontexts : ∀ {s context}, plan.contexts.find? s = some context →
      context.localVar.index < p.definitions.size)
    (hserves : ∀ {f : FunctionId} {decl : FunctionDecl}, p.functions[f.index]? = some decl →
      ∀ a ∈ decl.atoms, p.Serves plan f a) :
    ((List.range p.functions.size).forM fun i => convertFunction plan ⟨i⟩).Ensures p
      fun _ => p.Converted plan := by
  refine recodesAll_ensures fun {f decl r} hr hdecl hdecl' => ?_
  obtain ⟨decl', hrun, _⟩ := @ConversionSite.yields_convertFunction p ⟨r, plan, f, false⟩ hp hr decl
    hdecl' hcontexts (hserves hdecl)
  have hgives : (convertFunction plan f).Gives r () { r with
      functions := r.functions.modify f.index fun _ => decl' } := by
    refine gives_ask_bind.mpr ⟨decl, functionAt_eq hdecl', gives_get_bind.mpr (gives_ask_bind.mpr
      ⟨(decl', none), hrun, gives_bind.mpr ⟨(), _, ?_, gives_pure.mpr ⟨rfl, rfl⟩⟩⟩)⟩
    exact gives_modifyFunction.mpr ⟨lt_of_get hdecl', rfl⟩
  exact ⟨(), _, hgives, convertFunction_gives hcopies hr hdecl' hgives⟩

end Pass

end StackBackend
