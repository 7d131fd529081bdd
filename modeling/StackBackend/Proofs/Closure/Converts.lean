import StackBackend.Proofs.Closure.Access

/-! What conversion does to code, as a relation. A captured variable becomes a field of its
context wherever it is used, a closure is allocated where its function was declared, and calls
of closures become calls of methods; everything else stays. -/

namespace StackBackend

namespace ClosurePlan

def allocations (plan : ClosurePlan) (scopes : List ScopeId) : List Stmt :=
  (scopes.filterMap plan.contexts.find?).map ContextClass.allocation

def neededBy (plan : ClosurePlan) (g : FunctionId) : List ScopeId :=
  (plan.captures.needed.find? g).getD []

/-- Nodes that conversion leaves as they are, around other parts. -/
def Leaves (plan : ClosurePlan) : Expr → Prop
  | .variable _ _ => False
  | .functionValue _ g => plan.values.find? g = none ∧ plan.closures.find? g = none
  | .call _ g _ _ => plan.closures.find? g = none
  | _ => True

end ClosurePlan

namespace Program

mutual

/-- An expression before and after conversion. -/
inductive Converts (p : Program) (plan : ClosurePlan) (f : FunctionId) (inChain : Bool) :
    Expr → Expr → Prop where
  | plain {e : Expr} {parts : List Expr} (isPlain : e.isPlain = true) (leaves : plan.Leaves e)
    (args : ConvertsArgs p plan f inChain e.parts parts) :
    Converts p plan f inChain e (e.withParts parts)
  | variable {ty : Ty} {d : DefnId} {e : Expr} (replaces : p.Replaces plan f inChain ty d e) :
    Converts p plan f inChain (.variable ty d) e
  | value {ty : Ty} {g : FunctionId} {value : ValueClass} (isValue : plan.values.find? g = some value) :
    Converts p plan f inChain (.functionValue ty g) (.mkNew value.ty value.constructor [])
  | closure {ty : Ty} {g : FunctionId} {closure : ClosureClass} {e : Expr}
    (noValue : plan.values.find? g = none) (isClosure : plan.closures.find? g = some closure)
    (replaces : p.Replaces plan f inChain closure.ty closure.var e) :
    Converts p plan f inChain (.functionValue ty g) (e.withTy ty)
  | call {ty : Ty} {g : FunctionId} {typeArgs : List Ty} {closure : ClosureClass} {e : Expr}
    {args args' : List Expr} (isClosure : plan.closures.find? g = some closure)
    (replaces : p.Replaces plan f inChain closure.ty closure.var e)
    (operands : ConvertsArgs p plan f inChain args args') :
    Converts p plan f inChain (.call ty g typeArgs args)
      (.invoke ty e g (typeArgs.drop closure.inherited) args')
  | block {ty : Ty} {stmts stmts' : List Stmt} (entered : List ScopeId)
    (inner : ConvertsStmts p plan f inChain stmts stmts') :
    Converts p plan f inChain (.block ty stmts) (.block ty (plan.allocations entered ++ stmts'))
  | attempt {ty : Ty} {body body' : Expr} {clauses clauses' : List Clause}
    (head : Converts p plan f inChain body body')
    (handlers : ConvertsClauses p plan f inChain clauses clauses') :
    Converts p plan f inChain (.attempt ty body clauses none) (.attempt ty body' clauses' none)
  | cleanup {ty : Ty} {body body' last last' : Expr} {clauses clauses' : List Clause}
    (head : Converts p plan f inChain body body')
    (handlers : ConvertsClauses p plan f inChain clauses clauses')
    (final : Converts p plan f inChain last last') :
    Converts p plan f inChain (.attempt ty body clauses (some last))
      (.attempt ty body' clauses' (some last'))

inductive ConvertsArgs (p : Program) (plan : ClosurePlan) (f : FunctionId) (inChain : Bool) :
    List Expr → List Expr → Prop where
  | nil : ConvertsArgs p plan f inChain [] []
  | cons {e e' : Expr} {rest rest' : List Expr} (head : Converts p plan f inChain e e')
    (tail : ConvertsArgs p plan f inChain rest rest') :
    ConvertsArgs p plan f inChain (e :: rest) (e' :: rest')

inductive ConvertsStmts (p : Program) (plan : ClosurePlan) (f : FunctionId) (inChain : Bool) :
    List Stmt → List Stmt → Prop where
  | nil : ConvertsStmts p plan f inChain [] []
  | expr {e e' : Expr} {rest rest' : List Stmt} (head : Converts p plan f inChain e e')
    (tail : ConvertsStmts p plan f inChain rest rest') :
    ConvertsStmts p plan f inChain (.expr e :: rest) (.expr e' :: rest')
  | declare {d : DefnId} {rest rest' : List Stmt} (free : ∀ s, ¬ p.LivesIn plan d s)
    (tail : ConvertsStmts p plan f inChain rest rest') :
    ConvertsStmts p plan f inChain (.declare d none :: rest) (.declare d none :: rest')
  | define {d : DefnId} {init init' : Expr} {rest rest' : List Stmt}
    (free : ∀ s, ¬ p.LivesIn plan d s) (head : Converts p plan f inChain init init')
    (tail : ConvertsStmts p plan f inChain rest rest') :
    ConvertsStmts p plan f inChain (.declare d (some init) :: rest)
      (.declare d (some init') :: rest')
  /-- The context has the variable already. -/
  | allocated {d : DefnId} {s : ScopeId} {rest rest' : List Stmt} (home : p.LivesIn plan d s)
    (tail : ConvertsStmts p plan f inChain rest rest') :
    ConvertsStmts p plan f inChain (.declare d none :: rest) rest'
  | store {d : DefnId} {s : ScopeId} {context init init' : Expr} {rest rest' : List Stmt}
    (home : p.LivesIn plan d s) (path : p.Denotes plan f s context)
    (head : Converts p plan f inChain init init')
    (tail : ConvertsStmts p plan f inChain rest rest') :
    ConvertsStmts p plan f inChain (.declare d (some init) :: rest)
      (.expr (.mkInitField context d init') :: rest')
  /-- A function that is no closure needs nothing at run time. -/
  | function {g : FunctionId} {rest rest' : List Stmt} (noClosure : plan.closures.find? g = none)
    (tail : ConvertsStmts p plan f inChain rest rest') :
    ConvertsStmts p plan f inChain (.function g :: rest) rest'
  | closureLocal {g : FunctionId} {closure : ClosureClass} {args : List Expr} {rest rest' : List Stmt}
    (isClosure : plan.closures.find? g = some closure)
    (contexts : List.Forall₂ (p.Denotes plan f) (plan.neededBy g) args)
    (free : ∀ s, ¬ p.LivesIn plan closure.var s)
    (tail : ConvertsStmts p plan f inChain rest rest') :
    ConvertsStmts p plan f inChain (.function g :: rest)
      (.declare closure.var (some (.mkNew closure.ty closure.constructor args)) :: rest')
  | closureField {g : FunctionId} {closure : ClosureClass} {args : List Expr} {s : ScopeId}
    {context : Expr} {rest rest' : List Stmt} (isClosure : plan.closures.find? g = some closure)
    (contexts : List.Forall₂ (p.Denotes plan f) (plan.neededBy g) args)
    (home : p.LivesIn plan closure.var s) (path : p.Denotes plan f s context)
    (tail : ConvertsStmts p plan f inChain rest rest') :
    ConvertsStmts p plan f inChain (.function g :: rest) (.expr (.mkInitField context closure.var
      (.mkNew closure.ty closure.constructor args)) :: rest')

inductive ConvertsClauses (p : Program) (plan : ClosurePlan) (f : FunctionId) (inChain : Bool) :
    List Clause → List Clause → Prop where
  | nil : ConvertsClauses p plan f inChain [] []
  | keep {binding : Option DefnId} {guard : Option ClassId} {body body' : Expr}
    {rest rest' : List Clause}
    (free : ∀ d ∈ binding, plan.caught.find? d = none ∨ ∀ s, ¬ p.LivesIn plan d s)
    (head : Converts p plan f inChain body body')
    (tail : ConvertsClauses p plan f inChain rest rest') :
    ConvertsClauses p plan f inChain (.mk binding guard body :: rest)
      (.mk binding guard body' :: rest')
  /-- Another local takes the exception, which is then stored. -/
  | store {d temp : DefnId} {s : ScopeId} {guard : Option ClassId} {ty : Ty}
    {context body body' : Expr} {rest rest' : List Clause} (entered : List ScopeId)
    (taken : plan.caught.find? d = some temp) (home : p.LivesIn plan d s)
    (path : p.Denotes plan f s context) (head : Converts p plan f inChain body body')
    (tail : ConvertsClauses p plan f inChain rest rest') :
    ConvertsClauses p plan f inChain (.mk (some d) guard body :: rest)
      (.mk (some temp) guard (.block body'.ty (plan.allocations entered ++
        [.expr (.mkInitField context d (.variable ty temp)), .expr body'])) :: rest')

end

end Program

namespace ConversionSite

open StackBackend.Convert Program

variable {p : Program} {site : ConversionSite}

theorem convert_plain {e : Expr} (hplain : e.isPlain = true) (hleaves : site.plan.Leaves e)
    (opened : List ScopeId) : site.convert e opened =
      (do let parts ← site.convertArgs e.parts opened; pure (e.withParts parts)) := by
  cases e with
  | block | attempt => cases hplain
  | «variable» ty d => exact hleaves.elim
  | functionValue ty g =>
    obtain ⟨hvalue, hclosure⟩ := hleaves
    simp only [convert, hvalue, closureValue?, hclosure, pure_bind, Option.map_none, Option.getD_none,
      Expr.parts, convertArgs, Expr.withParts]
  | call ty g typeArgs args =>
    have hclosure : site.plan.closures.find? g = none := hleaves
    simp only [convert, hclosure, Expr.parts, Expr.withParts]
  | cond ty test onTrue onFalse =>
    cases onFalse <;> simp only [convert, Expr.parts, convertArgs, Expr.withParts, bind_assoc, pure_bind]
  | ret ty value =>
    cases value <;> simp only [convert, Expr.parts, convertArgs, Expr.withParts, bind_assoc, pure_bind]
  | _ => simp only [convert, Expr.parts, convertArgs, Expr.withParts, bind_assoc, pure_bind]

section

variable (hsite : p.Recoded site.program)
include hsite

theorem settles_declare {d : DefnId} : (site.declaration d none).Settles fun stmts =>
    (stmts = [.declare d none] ∧ ∀ s, ¬ p.LivesIn site.plan d s) ∨
      (stmts = [] ∧ ∃ s, p.LivesIn site.plan d s) := by
  refine settles_lift fun home hhome => ?_
  have hlives := contextScope?_eq hsite hhome
  cases home with
  | none => exact settles_pure (.inl ⟨rfl, fun s hs => nomatch (hlives s).mp hs⟩)
  | some s => exact settles_pure (.inr ⟨rfl, s, (hlives s).mpr rfl⟩)

theorem settles_define {d : DefnId} {init : Expr} :
    (site.declaration d (some init)).Settles fun stmts =>
      (stmts = [.declare d (some init)] ∧ ∀ s, ¬ p.LivesIn site.plan d s) ∨
        ∃ s context, stmts = [.expr (.mkInitField context d init)] ∧ p.LivesIn site.plan d s ∧
          p.Denotes site.plan site.function s context := by
  refine settles_lift fun home hhome => ?_
  have hlives := contextScope?_eq hsite hhome
  cases home with
  | none => exact settles_pure (.inl ⟨rfl, fun s hs => nomatch (hlives s).mp hs⟩)
  | some s =>
    exact settles_lift fun defn _ => (settles_contextAccess hsite).bind_some rfl fun context =>
      settles_pure fun hpath => .inr ⟨s, context, rfl, (hlives s).mpr rfl, hpath⟩

theorem settles_closureAllocation {g : FunctionId} {closure : ClosureClass}
    (hg : site.plan.closures.find? g = some closure) :
    (site.closureAllocation g).Settles fun stmts =>
      ∃ args, List.Forall₂ (p.Denotes site.plan site.function) (site.plan.neededBy g) args ∧
        ((stmts = [.declare closure.var (some (.mkNew closure.ty closure.constructor args))] ∧
            ∀ s, ¬ p.LivesIn site.plan closure.var s) ∨
          ∃ s context, stmts = [.expr (.mkInitField context closure.var
              (.mkNew closure.ty closure.constructor args))] ∧
            p.LivesIn site.plan closure.var s ∧ p.Denotes site.plan site.function s context) := by
  unfold closureAllocation
  rw [hg]
  refine settles_lift fun decl _ => (settles_contextAccesses hsite _).bind_some rfl fun args => ?_
  refine settles_lift fun home hhome => ?_
  have hlives := contextScope?_eq hsite hhome
  cases home with
  | none =>
    exact settles_pure fun hargs => ⟨args, hargs, .inl ⟨rfl, fun s hs => nomatch (hlives s).mp hs⟩⟩
  | some s =>
    exact (settles_contextAccess hsite).bind_some rfl fun context => settles_pure fun hpath hargs =>
      ⟨args, hargs, .inr ⟨s, context, rfl, (hlives s).mpr rfl, hpath⟩⟩

theorem settles_clauseBody {d temp : DefnId} {s : ScopeId} {allocates : Bool} {body : Expr} :
    (site.clauseBody d temp s allocates body).Settles fun e => ∃ entered context ty,
      p.Denotes site.plan site.function s context ∧
        e = .block body.ty (site.plan.allocations entered ++
          [.expr (.mkInitField context d (.variable ty temp)), .expr body]) := by
  refine settles_lift fun defn _ => (settles_contextAccess hsite).bind_some rfl fun context => ?_
  refine settles_lift fun load hload => settles_pure fun hpath => ?_
  obtain ⟨ty, rfl⟩ := Pass.load_eq hload
  cases allocates with
  | true => exact ⟨[s], context, ty, hpath, by rw [if_pos rfl, List.append_assoc]; rfl⟩
  | false => exact ⟨[], context, ty, hpath, rfl⟩

omit hsite in
theorem captured?_some (d : DefnId) : site.captured? (some d) = (match site.plan.caught.find? d with
    | none => pure none
    | some temp => do pure ((← site.contextScope? d).map fun s => (d, temp, s))) := rfl

theorem captured?_eq {binding : Option DefnId} {o : Option (DefnId × DefnId × ScopeId)}
    (h : site.captured? binding = .ok o) :
    (o = none ∧ ∀ d ∈ binding, site.plan.caught.find? d = none ∨ ∀ s, ¬ p.LivesIn site.plan d s) ∨
      ∃ d temp s, o = some (d, temp, s) ∧ binding = some d ∧
        site.plan.caught.find? d = some temp ∧ p.LivesIn site.plan d s := by
  cases binding with
  | none => cases h; exact .inl ⟨rfl, fun _ hd => by cases hd⟩
  | some d =>
    rw [captured?_some] at h
    cases htemp : site.plan.caught.find? d with
    | none =>
      rw [htemp] at h
      cases h
      exact .inl ⟨rfl, fun _ hd => by cases hd; exact .inl htemp⟩
    | some temp =>
      rw [htemp] at h
      obtain ⟨home, hhome, h⟩ := Checked.bind_eq_ok.mp h
      have hlives := contextScope?_eq hsite hhome
      cases h
      cases home with
      | none => exact .inl ⟨rfl, fun _ hd => by cases hd; exact .inr fun s hs => by cases (hlives s).mp hs⟩
      | some s => exact .inr ⟨d, temp, s, rfl, rfl, htemp, (hlives s).mpr rfl⟩

/-- Code that was converted without a failure is related to what it came from. -/
theorem convert_settles (hcopies : p.CopiesStored site.plan) : ExprInduction
    (fun e => ∀ opened, (site.convert e opened).Settles
      (p.Converts site.plan site.function site.inChain e))
    (fun args => ∀ opened, (site.convertArgs args opened).Settles
      (p.ConvertsArgs site.plan site.function site.inChain args))
    (fun stmts => ∀ opened, (site.convertStmts stmts opened).Settles
      (p.ConvertsStmts site.plan site.function site.inChain stmts))
    (fun clauses => ∀ opened, (site.convertClauses clauses opened).Settles
      (p.ConvertsClauses site.plan site.function site.inChain clauses)) where
  plain e he hparts opened := by
    by_cases hleaves : site.plan.Leaves e
    · rw [convert_plain he hleaves]
      exact (hparts opened).bind fun parts => settles_pure fun hargs => .plain he hleaves hargs
    · cases e with
      | «variable» ty d =>
        exact (settles_replacement? hsite hcopies).bind fun o => settles_pure fun h => .variable h
      | functionValue ty g =>
        rw [convert]
        cases hvalue : site.plan.values.find? g with
        | some value => exact settles_pure (.value hvalue)
        | none =>
          refine (settles_closureValue? hsite hcopies).bind fun o => settles_pure ?_
          rintro (⟨_, hnone⟩ | ⟨closure, e, rfl, hclosure, hreplaces⟩)
          · exact absurd ⟨hvalue, hnone⟩ hleaves
          · exact .closure hvalue hclosure hreplaces
      | call ty g typeArgs args =>
        rw [convert]
        refine (hparts opened).bind fun args' => ?_
        cases hclosure : site.plan.closures.find? g with
        | none => exact absurd hclosure hleaves
        | some closure =>
          refine (settles_closureValue? hsite hcopies).bind fun o => ?_
          cases o with
          | none =>
            refine settles_pure ?_
            rintro (⟨_, hnone⟩ | ⟨_, _, he, _⟩)
            · cases hclosure.symm.trans hnone
            · cases he
          | some receiver =>
            refine settles_pure ?_
            rintro (⟨hnone, _⟩ | ⟨closure', e, he, hclosure', hreplaces⟩) hargs
            · cases hnone
            · cases he
              cases hclosure.symm.trans hclosure'
              exact .call hclosure hreplaces hargs
      | _ => exact absurd trivial hleaves
  block ty stmts hstmts opened := by
    rw [convert]
    exact settles_lift fun entered _ => (hstmts _).bind fun stmts' => settles_pure fun h =>
      .block entered h
  attempt ty body clauses hbody hclauses opened := by
    rw [convert]
    exact (hbody opened).bind fun _ => (hclauses opened).bind fun _ => settles_pure fun h h' =>
      .attempt h' h
  cleanup ty body clauses last hbody hclauses hlast opened := by
    rw [convert]
    exact (hbody opened).bind fun _ => (hclauses opened).bind fun _ => (hlast opened).bind fun _ =>
      settles_pure fun h h' h'' => .cleanup h'' h' h
  noArgs opened := settles_pure .nil
  arg e rest he hrest opened := by
    rw [convertArgs]
    exact (he opened).bind fun _ => (hrest opened).bind fun _ => settles_pure fun h h' => .cons h' h
  noStmts opened := settles_pure .nil
  expr e rest he hrest opened := by
    rw [convertStmts]
    exact (he opened).bind fun _ => (hrest opened).bind fun _ => settles_pure fun h h' => .expr h' h
  declare d rest hrest opened := by
    rw [convertStmts]
    refine (settles_declare hsite).bind fun stmts => (hrest opened).bind fun rest' => settles_pure ?_
    rintro h (⟨rfl, hfree⟩ | ⟨rfl, s, hhome⟩)
    · exact .declare hfree h
    · exact .allocated hhome h
  define d init rest hinit hrest opened := by
    rw [convertStmts]
    refine (hinit opened).bind fun init' => (settles_define hsite).bind fun stmts =>
      (hrest opened).bind fun rest' => settles_pure ?_
    rintro h (⟨rfl, hfree⟩ | ⟨s, context, rfl, hhome, hpath⟩) hinit
    · exact .define hfree hinit h
    · exact .store hhome hpath hinit h
  function g rest hrest opened := by
    rw [convertStmts]
    cases hclosure : site.plan.closures.find? g with
    | none =>
      rw [closureAllocation, hclosure]
      exact (hrest opened).bind fun rest' => settles_pure fun h => .function hclosure h
    | some closure =>
      refine (settles_closureAllocation hsite hclosure).bind fun stmts =>
        (hrest opened).bind fun rest' => settles_pure ?_
      rintro h ⟨args, hargs, ⟨rfl, hfree⟩ | ⟨s, context, rfl, hhome, hpath⟩⟩
      · exact .closureLocal hclosure hargs hfree h
      · exact .closureField hclosure hargs hhome hpath h
  noClauses opened := settles_pure .nil
  clause binding guard body rest hbody hrest opened := by
    rw [convertClauses]
    refine settles_lift fun o ho => ?_
    rcases captured?_eq hsite ho with ⟨rfl, hfree⟩ | ⟨d, temp, s, rfl, rfl, htemp, hhome⟩
    · exact (hbody opened).bind fun body' => settles_pure_bind ((hrest opened).bind fun rest' =>
        settles_pure fun h hb => .keep hfree hb h)
    · refine settles_lift fun allocates _ => (hbody _).bind fun body' =>
        (settles_clauseBody hsite).bind fun e => settles_pure_bind ((hrest opened).bind fun rest' =>
          settles_pure ?_)
      rintro h ⟨entered, context, ty, hpath, rfl⟩ hb
      exact .store entered htemp hhome hpath hb h

end

end ConversionSite

end StackBackend
