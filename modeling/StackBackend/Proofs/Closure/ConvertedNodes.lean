import StackBackend.Proofs.Closure.Converts

/-! Where the nodes of converted code come from: from nodes that were there before, or from
what gets at contexts and closures and allocates them. -/

namespace StackBackend

open Expr (all_variable all_field all_new all_block)

namespace Program

/-- A node of converted code, given the nodes there were before. -/
inductive NodeAfter (p : Program) (plan : ClosurePlan) (f : FunctionId) (inChain : Bool)
    (before : List Node) : Node → Prop where
  | plain {e : Expr} {parts : List Expr} (mem : .expr e ∈ before) (isPlain : e.isPlain = true)
    (leaves : plan.Leaves e) (length : parts.length = e.parts.length) :
    NodeAfter p plan f inChain before (.expr (e.withParts parts))
  | neutral {n : Node} (atoms : n.atoms = [])
    (creates : ∀ {ty cls constructor args}, n ≠ .expr (.new ty cls constructor args)) :
    NodeAfter p plan f inChain before n
  | variable {ty : Ty} {d : DefnId} (mem : .expr (.variable ty d) ∈ before)
    (stays : p.Replaces plan f inChain ty d (.variable ty d)) :
    NodeAfter p plan f inChain before (.expr (.variable ty d))
  | closureVar {ty : Ty} {g : FunctionId} {closure : ClosureClass}
    (isClosure : plan.closures.find? g = some closure)
    (stays : p.Replaces plan f inChain closure.ty closure.var (.variable closure.ty closure.var)) :
    NodeAfter p plan f inChain before (.expr (.variable ty closure.var))
  | context {ty : Ty} {s : ScopeId} {context : ContextClass}
    (owner : p.scopeFunction s = .ok (some f)) (holds : plan.contexts.find? s = some context) :
    NodeAfter p plan f inChain before (.expr (.variable ty context.localVar))
  | receiver {ty : Ty} {closure : ClosureClass} (isClosure : plan.closures.find? f = some closure) :
    NodeAfter p plan f inChain before (.expr (.variable ty closure.receiver))
  | temp {ty : Ty} {d temp : DefnId} {s : ScopeId} {guard : Option ClassId} {body context : Expr}
    (mem : .clause (.mk (some d) guard body) ∈ before) (taken : plan.caught.find? d = some temp)
    (home : p.LivesIn plan d s) (path : p.Denotes plan f s context) :
    NodeAfter p plan f inChain before (.expr (.variable ty temp))
  | newValue {g : FunctionId} {value : ValueClass} (isValue : plan.values.find? g = some value) :
    NodeAfter p plan f inChain before (.expr (.mkNew value.ty value.constructor []))
  | newContext {s : ScopeId} {context : ContextClass} (holds : plan.contexts.find? s = some context) :
    NodeAfter p plan f inChain before (.expr (.mkNew context.ty context.constructor []))
  | newClosure {g : FunctionId} {closure : ClosureClass} {args : List Expr}
    (isClosure : plan.closures.find? g = some closure)
    (contexts : List.Forall₂ (p.Denotes plan f) (plan.neededBy g) args) :
    NodeAfter p plan f inChain before (.expr (.mkNew closure.ty closure.constructor args))
  | declare {d : DefnId} {init init' : Option Expr} (mem : .stmt (.declare d init) ∈ before)
    (free : ∀ s, ¬ p.LivesIn plan d s) :
    NodeAfter p plan f inChain before (.stmt (.declare d init'))
  | declareContext {s : ScopeId} {context : ContextClass} {init : Option Expr}
    (holds : plan.contexts.find? s = some context) :
    NodeAfter p plan f inChain before (.stmt (.declare context.localVar init))
  | declareClosure {g : FunctionId} {closure : ClosureClass} {init : Option Expr}
    (isClosure : plan.closures.find? g = some closure) (free : ∀ s, ¬ p.LivesIn plan closure.var s) :
    NodeAfter p plan f inChain before (.stmt (.declare closure.var init))
  | clause {binding : Option DefnId} {guard : Option ClassId} {body body' : Expr}
    (mem : .clause (.mk binding guard body) ∈ before)
    (free : ∀ d ∈ binding, plan.caught.find? d = none ∨ ∀ s, ¬ p.LivesIn plan d s) :
    NodeAfter p plan f inChain before (.clause (.mk binding guard body'))
  | clauseTemp {d temp : DefnId} {guard : Option ClassId} {body body' : Expr}
    (mem : .clause (.mk (some d) guard body) ∈ before) (taken : plan.caught.find? d = some temp) :
    NodeAfter p plan f inChain before (.clause (.mk (some temp) guard body'))

section

variable {p : Program} {plan : ClosurePlan} {f : FunctionId} {inChain : Bool} {before : List Node}

theorem Denotes.all {s : ScopeId} {e : Expr} (h : p.Denotes plan f s e) :
    e.All (p.NodeAfter plan f inChain before) := by
  cases h with
  | own howner hholds => exact all_variable.mpr (.context howner hholds)
  | held _ hclosure _ =>
    exact all_field.mpr ⟨.neutral rfl nofun, all_variable.mpr (.receiver hclosure)⟩

theorem denotes_allArgs {scopes : List ScopeId} {args : List Expr}
    (h : List.Forall₂ (p.Denotes plan f) scopes args) :
    AllArgs (p.NodeAfter plan f inChain before) args := by
  induction h with
  | nil => exact allArgs_nil
  | cons hpath _ ih => exact allArgs_cons.mpr ⟨hpath.all, ih⟩

theorem all_storeInContext {s : ScopeId} {d : DefnId} {context value : Expr}
    (hpath : p.Denotes plan f s context) (hvalue : value.All (p.NodeAfter plan f inChain before)) :
    (Expr.mkInitField context d value).All (p.NodeAfter plan f inChain before) :=
  Expr.all_initField.mpr ⟨.neutral rfl nofun, hvalue, hpath.all⟩

theorem all_newClosure {g : FunctionId} {closure : ClosureClass} {args : List Expr}
    (hg : plan.closures.find? g = some closure)
    (hargs : List.Forall₂ (p.Denotes plan f) (plan.neededBy g) args) :
    (Expr.mkNew closure.ty closure.constructor args).All (p.NodeAfter plan f inChain before) :=
  all_new.mpr ⟨.newClosure hg hargs, denotes_allArgs hargs⟩

theorem allStmts_allocations (scopes : List ScopeId) :
    AllStmts (p.NodeAfter plan f inChain before) (plan.allocations scopes) := by
  induction scopes with
  | nil => exact allStmts_nil
  | cons s rest ih =>
    unfold ClosurePlan.allocations at ih ⊢
    cases hs : plan.contexts.find? s with
    | none => rw [List.filterMap_cons_none hs]; exact ih
    | some context =>
      rw [List.filterMap_cons_some hs, List.map_cons, ContextClass.allocation, allStmts_define]
      exact ⟨.declareContext hs, all_new.mpr ⟨.newContext hs, allArgs_nil⟩, ih⟩

theorem allStmts_append {P : Node → Prop} {xs ys : List Stmt} :
    AllStmts P (xs ++ ys) ↔ AllStmts P xs ∧ AllStmts P ys := by
  unfold AllStmts
  rw [nodesOfStmts_append]
  exact List.forall_mem_append

theorem Replaces.all {ty : Ty} {g : FunctionId} {closure : ClosureClass} {e : Expr}
    (hg : plan.closures.find? g = some closure)
    (h : p.Replaces plan f inChain closure.ty closure.var e) :
    (e.withTy ty).All (p.NodeAfter plan f inChain before) ∧
      e.All (p.NodeAfter plan f inChain before) := by
  cases h with
  | stored _ hpath =>
    exact ⟨all_field.mpr ⟨.neutral rfl nofun, hpath.all⟩,
      all_field.mpr ⟨.neutral rfl nofun, hpath.all⟩⟩
  | early hchain hparam hhome hown =>
    have hstays : p.Replaces plan f inChain closure.ty closure.var (.variable closure.ty closure.var) :=
      .early hchain hparam hhome hown
    exact ⟨all_variable.mpr (.closureVar hg hstays), all_variable.mpr (.closureVar hg hstays)⟩
  | kept hfree hframe =>
    have hstays : p.Replaces plan f inChain closure.ty closure.var (.variable closure.ty closure.var) :=
      .kept hfree hframe
    exact ⟨all_variable.mpr (.closureVar hg hstays), all_variable.mpr (.closureVar hg hstays)⟩

theorem ConvertsArgs.length {args args' : List Expr}
    (h : p.ConvertsArgs plan f inChain args args') :
    args'.length = args.length := by
  induction args generalizing args' with
  | nil => cases h; rfl
  | cons e rest ih =>
    cases h with
    | cons _ htail => exact congrArg Nat.succ (ih htail)

variable (p plan f inChain before)

/-- Every node of converted code comes from somewhere. -/
theorem converts_nodes : ExprInduction
    (fun e => e.All (· ∈ before) → ∀ e', p.Converts plan f inChain e e' →
      e'.All (p.NodeAfter plan f inChain before))
    (fun args => AllArgs (· ∈ before) args → ∀ args', p.ConvertsArgs plan f inChain args args' →
      AllArgs (p.NodeAfter plan f inChain before) args')
    (fun stmts => AllStmts (· ∈ before) stmts → ∀ stmts', p.ConvertsStmts plan f inChain stmts stmts' →
      AllStmts (p.NodeAfter plan f inChain before) stmts')
    (fun clauses => AllClauses (· ∈ before) clauses → ∀ clauses',
      p.ConvertsClauses plan f inChain clauses clauses' →
        AllClauses (p.NodeAfter plan f inChain before) clauses') where
  plain e he hparts hmem e' h := by
    obtain ⟨hnode, hargs⟩ := (Expr.all_plain he).mp hmem
    cases h with
    | plain _ hleaves hconverts =>
      obtain ⟨hps, _, hplain⟩ := Expr.withParts_eq hconverts.length
      rw [Expr.all_plain (hplain.trans he), hps]
      exact ⟨.plain hnode he hleaves hconverts.length, hparts hargs _ hconverts⟩
    | «variable» hreplaces =>
      cases hreplaces with
      | stored _ hpath => exact all_field.mpr ⟨.neutral rfl nofun, hpath.all⟩
      | early hchain hparam hhome hown =>
        exact all_variable.mpr (.variable hnode (.early hchain hparam hhome hown))
      | kept hfree hframe => exact all_variable.mpr (.variable hnode (.kept hfree hframe))
    | value hvalue => exact all_new.mpr ⟨.newValue hvalue, allArgs_nil⟩
    | closure _ hclosure hreplaces => exact (hreplaces.all hclosure).1
    | @call ty g typeArgs closure receiver args args' hclosure hreplaces hconverts =>
      exact Expr.all_invoke.mpr ⟨.neutral rfl nofun, (@Replaces.all p plan f inChain before ty g closure receiver hclosure hreplaces).2,
        hparts hargs _ hconverts⟩
    | block | attempt | cleanup => cases he
  block ty stmts hstmts hmem e' h := by
    cases h with
    | plain hplain => cases hplain
    | block entered hinner =>
      refine all_block.mpr ⟨.neutral rfl nofun, allStmts_append.mpr
        ⟨allStmts_allocations entered, hstmts (all_block.mp hmem).2 _ hinner⟩⟩
  attempt ty body clauses hbody hclauses hmem e' h := by
    obtain ⟨_, hmemBody, hmemClauses⟩ := Expr.all_attempt_none.mp hmem
    cases h with
    | plain hplain => cases hplain
    | attempt hhead hhandlers =>
      exact Expr.all_attempt_none.mpr ⟨.neutral rfl nofun, hbody hmemBody _ hhead,
        hclauses hmemClauses _ hhandlers⟩
  cleanup ty body clauses last hbody hclauses hlast hmem e' h := by
    obtain ⟨_, hmemBody, hmemClauses, hmemLast⟩ := Expr.all_attempt.mp hmem
    cases h with
    | plain hplain => cases hplain
    | cleanup hhead hhandlers hfinal =>
      exact Expr.all_attempt.mpr ⟨.neutral rfl nofun, hbody hmemBody _ hhead,
        hclauses hmemClauses _ hhandlers, hlast hmemLast _ hfinal⟩
  noArgs _ _ h := by cases h; exact allArgs_nil
  arg e rest he hrest hmem args' h := by
    obtain ⟨hmemHead, hmemRest⟩ := allArgs_cons.mp hmem
    cases h with
    | cons hhead htail => exact allArgs_cons.mpr ⟨he hmemHead _ hhead, hrest hmemRest _ htail⟩
  noStmts _ _ h := by cases h; exact allStmts_nil
  expr e rest he hrest hmem stmts' h := by
    obtain ⟨_, hmemHead, hmemRest⟩ := allStmts_expr.mp hmem
    cases h with
    | expr hhead htail =>
      exact allStmts_expr.mpr ⟨.neutral rfl nofun, he hmemHead _ hhead, hrest hmemRest _ htail⟩
  declare d rest hrest hmem stmts' h := by
    obtain ⟨hnode, hmemRest⟩ := allStmts_declare.mp hmem
    cases h with
    | declare hfree htail =>
      exact allStmts_declare.mpr ⟨.declare hnode hfree, hrest hmemRest _ htail⟩
    | allocated _ htail => exact hrest hmemRest _ htail
  define d init rest hinit hrest hmem stmts' h := by
    obtain ⟨hnode, hmemInit, hmemRest⟩ := allStmts_define.mp hmem
    cases h with
    | define hfree hhead htail =>
      exact allStmts_define.mpr ⟨.declare hnode hfree, hinit hmemInit _ hhead, hrest hmemRest _ htail⟩
    | store _ hpath hhead htail =>
      exact allStmts_expr.mpr ⟨.neutral rfl nofun, all_storeInContext hpath (hinit hmemInit _ hhead),
        hrest hmemRest _ htail⟩
  function g rest hrest hmem stmts' h := by
    obtain ⟨_, hmemRest⟩ := allStmts_function.mp hmem
    cases h with
    | function _ htail => exact hrest hmemRest _ htail
    | closureLocal hclosure hargs hfree htail =>
      exact allStmts_define.mpr ⟨.declareClosure hclosure hfree, all_newClosure hclosure hargs,
        hrest hmemRest _ htail⟩
    | closureField hclosure hargs _ hpath htail =>
      exact allStmts_expr.mpr ⟨.neutral rfl nofun,
        all_storeInContext hpath (all_newClosure hclosure hargs), hrest hmemRest _ htail⟩
  noClauses _ _ h := by cases h; exact allClauses_nil
  clause binding guard body rest hbody hrest hmem clauses' h := by
    obtain ⟨hnode, hmemBody, hmemRest⟩ := allClauses_cons.mp hmem
    cases h with
    | keep hfree hhead htail =>
      exact allClauses_cons.mpr ⟨.clause hnode hfree, hbody hmemBody _ hhead, hrest hmemRest _ htail⟩
    | store entered htaken hhome hpath hhead htail =>
      refine allClauses_cons.mpr ⟨.clauseTemp hnode htaken, all_block.mpr ⟨.neutral rfl nofun,
        allStmts_append.mpr ⟨allStmts_allocations entered, ?_⟩⟩, hrest hmemRest _ htail⟩
      rw [allStmts_expr, allStmts_expr]
      exact ⟨.neutral rfl nofun,
        all_storeInContext hpath (all_variable.mpr (.temp hnode htaken hhome hpath)),
        .neutral rfl nofun, hbody hmemBody _ hhead, allStmts_nil⟩

end

end Program

end StackBackend
