import StackBackend.Closure
import StackBackend.Proofs.Closure.Converts
import StackBackend.Proofs.Closure.Recorded

/-! Closure conversion of a whole program: receivers are made explicit, what is captured is
found, the records are added and every function is converted. -/

namespace StackBackend

open Checked

/-! ## Entry into a function -/

namespace ClosurePlan

/-- The copies of captured parameters into the context of their function. -/
inductive CopiesParams (plan : ClosurePlan) (context : ContextClass) :
    List DefnId → List Stmt → Prop where
  | nil : CopiesParams plan context [] []
  | skip {d : DefnId} {rest : List DefnId} {stmts : List Stmt}
    (free : plan.paramFields.find? d = none) (tail : CopiesParams plan context rest stmts) :
    CopiesParams plan context (d :: rest) stmts
  | copy {d k : DefnId} {ty ty' : Ty} {rest : List DefnId} {stmts : List Stmt}
    (captured : plan.paramFields.find? d = some k) (tail : CopiesParams plan context rest stmts) :
    CopiesParams plan context (d :: rest) (.expr (.mkInitField (.variable ty context.localVar) k
      (.variable ty' d)) :: stmts)

inductive Enters (plan : ClosurePlan) (decl : FunctionDecl) (e : Expr) : Expr → Prop where
  | same (free : plan.contexts.find? decl.scope = none) : Enters plan decl e e
  | context {context : ContextClass} {copies : List Stmt}
    (holds : plan.contexts.find? decl.scope = some context)
    (params : plan.CopiesParams context decl.params copies) :
    Enters plan decl e (ConversionSite.prepend (context.allocation :: copies) e)

end ClosurePlan

namespace Program

def BodyConverts (p : Program) (plan : ClosurePlan) (f : FunctionId) (decl : FunctionDecl)
    (body body' : Expr) : Prop :=
  ∃ e, p.Converts plan f false body e ∧ plan.Enters decl e body'

def ChainConverts (p : Program) (plan : ClosurePlan) (f : FunctionId) (chain chain' : Chain) : Prop :=
  ∃ args, p.ConvertsArgs plan f true chain.call.args args ∧
    chain' = { chain with call := chain.call.withArgs args }

structure FunctionConverts (p : Program) (plan : ClosurePlan) (f : FunctionId)
    (decl decl' : FunctionDecl) : Prop where
  body : Option.Rel (p.BodyConverts plan f decl) decl.body decl'.body
  chain : Option.Rel (p.ChainConverts plan f) decl.chain decl'.chain

end Program

namespace Convert

variable {α β : Type} {R : α → β → Prop}

theorem settles_mapM {f : α → Convert β} (o : Option α) (h : ∀ a, (f a).Settles (R a)) :
    (o.mapM f).Settles (Option.Rel R o) := by
  cases o with
  | none => exact settles_pure .none
  | some a => exact (h a).bind fun b => settles_pure fun hb => .some hb

end Convert

namespace ConversionSite

open StackBackend.Convert Program

variable {p : Program} {site : ConversionSite} {decl : FunctionDecl}

theorem copies_eq {context : ContextClass} (params : List DefnId) : ∀ {copies : List Stmt},
    (params.filterMapM fun param => do
      match site.plan.paramFields.find? param with
      | none => pure none
      | some field => do
        let receiver ← site.program.load context.localVar
        pure (some (Stmt.expr (.mkInitField receiver field (← site.program.load param))))) =
      Except.ok (ε := Fault) copies → site.plan.CopiesParams context params copies := by
  induction params with
  | nil => intro copies h; cases h; exact .nil
  | cons d rest ih =>
    intro copies h
    rcases filterMapM_cons_eq.mp h with ⟨hd, hrest⟩ | ⟨stmt, copies', hd, hrest, rfl⟩
    · cases hfield : site.plan.paramFields.find? d with
      | none => exact .skip hfield (ih hrest)
      | some k =>
        rw [hfield] at hd
        obtain ⟨_, _, hd⟩ := bind_eq_ok.mp hd
        obtain ⟨_, _, hd⟩ := bind_eq_ok.mp hd
        cases hd
    · cases hfield : site.plan.paramFields.find? d with
      | none => rw [hfield] at hd; cases hd
      | some k =>
        rw [hfield] at hd
        obtain ⟨receiver, hreceiver, hd⟩ := bind_eq_ok.mp hd
        obtain ⟨value, hvalue, hd⟩ := bind_eq_ok.mp hd
        cases hd
        obtain ⟨ty, rfl⟩ := Pass.load_eq hreceiver
        obtain ⟨ty', rfl⟩ := Pass.load_eq hvalue
        exact .copy hfield (ih hrest)

section

variable (hsite : p.Recoded site.program) (hcopies : p.CopiesStored site.plan)
  (hdecl : site.program.functions[site.function.index]? = some decl) (hchain : site.inChain = false)
include hsite hcopies hdecl hchain

theorem settles_convertBody (body : Expr) : (site.convertBody body).Settles
    (p.BodyConverts site.plan site.function decl body) := by
  refine ((convert_settles hsite hcopies).exprs body []).bind fun e => settles_lift fun entry hentry => ?_
  rw [hchain]
  unfold prologue at hentry
  obtain ⟨_, hfunction, hentry⟩ := bind_eq_ok.mp hentry
  cases (functionAt_eq hdecl).symm.trans hfunction
  cases hcontext : site.plan.contexts.find? decl.scope with
  | none =>
    rw [hcontext] at hentry
    cases hentry
    exact settles_pure fun he => ⟨e, he, .same hcontext⟩
  | some context =>
    rw [hcontext] at hentry
    obtain ⟨copies, hlist, hentry⟩ := bind_eq_ok.mp hentry
    cases hentry
    exact settles_pure fun he => ⟨e, he, .context hcontext (copies_eq _ hlist)⟩

omit hdecl hchain in
theorem settles_convertChain (chain : Chain) : (site.convertChain chain).Settles
    (p.ChainConverts site.plan site.function chain) :=
  ((@convert_settles p { site with inChain := true } hsite hcopies).args _ []).bind fun args =>
    settles_pure fun hargs => ⟨args, hargs, rfl⟩

theorem settles_convertFunction : (site.convertFunction decl).Settles fun decl' =>
    ∃ body chain, decl' = { decl with body, chain } ∧
      p.FunctionConverts site.plan site.function decl decl' := by
  refine (settles_mapM _ (settles_convertBody hsite hcopies hdecl hchain)).bind fun body =>
    (settles_mapM _ (settles_convertChain hsite hcopies)).bind fun chain => settles_pure ?_
  intro hchains hbodies
  exact ⟨body, chain, rfl, hbodies, hchains⟩

end

end ConversionSite

/-! ## The pass -/

namespace Program

def Converted (p : Program) (plan : ClosurePlan) (q : Program) : Prop :=
  p.RecodesAll (p.FunctionConverts plan) q

/-- The programs that closure conversion goes through. -/
structure Conversion (p p1 : Program) (u : Usage) (needed : RefMap .functions (RefSet .scopes))
    (c : Captures) (plan : ClosurePlan) (p2 q : Program) : Prop where
  resolved : p.Resolved p1
  captures : p1.CapturesOf u needed c
  recorded : p1.Recorded c plan p2
  converted : p2.Converted plan q

end Program

namespace Pass

open Program

variable {p q r r' : Program} {plan : ClosurePlan} {f : FunctionId} {decl : FunctionDecl}

theorem convertFunction_recodes (hdecl : r.functions[f.index]? = some decl)
    (h : (convertFunction plan f).Gives r () r') : RecodesOne (fun _ decl decl' =>
      (ConversionSite.convertFunction ⟨r, plan, f, false⟩ decl).run none = .ok (decl', none)) f decl r r' := by
  obtain ⟨_, hfunction, h⟩ := gives_ask_bind.mp h
  cases (functionAt_eq hdecl).symm.trans hfunction
  obtain ⟨⟨decl', failure⟩, hrun, h⟩ := gives_ask_bind.mp (gives_get_bind.mp h)
  obtain ⟨_, r'', hmodify, h⟩ := gives_bind.mp h
  obtain ⟨_, rfl⟩ := gives_modifyFunction.mp hmodify
  cases failure with
  | some error => exact absurd h not_gives_stop
  | none =>
    obtain ⟨_, rfl⟩ := gives_pure.mp h
    have hparts := hrun
    obtain ⟨⟨body, _⟩, _, hparts⟩ := bind_eq_ok.mp hparts
    obtain ⟨⟨chain, _⟩, _, hparts⟩ := bind_eq_ok.mp hparts
    cases hparts
    exact ⟨body, chain, hrun, rfl⟩

theorem convertFunction_gives (hcopies : p.CopiesStored plan) (hr : p.Recoded r)
    (hdecl : r.functions[f.index]? = some decl) (h : (convertFunction plan f).Gives r () r') :
    RecodesOne (p.FunctionConverts plan) f decl r r' := by
  obtain ⟨body, chain, hrun, rfl⟩ := convertFunction_recodes hdecl h
  obtain ⟨_, _, _, _, hconverts⟩ := @ConversionSite.settles_convertFunction p ⟨r, plan, f, false⟩ decl hr
    hcopies hdecl rfl _ _ hrun
  exact ⟨body, chain, hconverts, rfl⟩

theorem convertClosures_gives (hp : p.Consistent) (h : convertClosures.Gives p () q) :
    ∃ p1 u needed c plan p2, resolveReceivers.Gives p () p1 ∧ p1.captures = .ok c ∧
      (addRecords c).Gives p1 plan p2 ∧ p.Conversion p1 u needed c plan p2 q := by
  obtain ⟨_, p1, hresolve, h⟩ := gives_bind.mp h
  have hresolved := resolveReceivers_gives hresolve
  have hp1 := hresolved.recoded.consistent hp
  obtain ⟨c, hc, h⟩ := gives_ask_bind.mp h
  obtain ⟨u, hu, hcaptures⟩ := bind_eq_ok.mp hc
  obtain ⟨needed, hcapturesOf⟩ := capturesOf_eq hp1 (usage_eq_ok hp1 hu) hcaptures
  obtain ⟨plan, p2, hrecords, h⟩ := gives_bind.mp h
  have hrecorded := (addRecords_ensures hp1 hcapturesOf).of_gives hrecords
  exact ⟨p1, u, needed, c, plan, p2, hresolve, hc, hrecords, hresolved, hcapturesOf, hrecorded,
    recodesAll_of_gives (gives_get_bind.mp h)
      (convertFunction_gives hrecorded.planned.copiesStored)⟩

end Pass

end StackBackend
