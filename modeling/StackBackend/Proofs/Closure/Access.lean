import StackBackend.Closure.Body
import StackBackend.Proofs.Closure.Receivers
import StackBackend.Proofs.Closure.Records

/-! How converted code gets at what was captured. Inside a function a context is denoted by
the local that holds it, if the function owns the scope, and by a field of the receiver of its
closure otherwise. Conversion that ends without a failure had none at any point, so all that
it asked for was in reach. -/

namespace StackBackend

open Checked

variable {p q : Program} {c : Captures} {plan : ClosurePlan} {d : DefnId} {ty : Ty}

/-! ## Conversion without failures -/

namespace Convert

variable {α β : Type} {P P' : α → Prop} {Q : β → Prop}

/-- If there is no failure at the end then there was none at the start, and the result has
the property. -/
def Settles (m : Convert α) (P : α → Prop) : Prop :=
  ∀ ⦃s a⦄, m.run s = .ok (a, none) → s = none ∧ P a

theorem Settles.mono {m : Convert α} (h : m.Settles P) (hP : ∀ a, P a → P' a) : m.Settles P' :=
  fun _ _ hrun => ⟨(h hrun).1, hP _ (h hrun).2⟩

theorem settles_pure {a : α} (h : P a) : Settles (pure a) P := by
  intro s b hrun
  cases hrun
  exact ⟨rfl, h⟩

theorem Settles.bind {m : Convert α} {f : α → Convert β} (hm : m.Settles P)
    (hf : ∀ a, (f a).Settles fun b => P a → Q b) : (m >>= f).Settles Q := by
  intro s b hrun
  rw [StateT.run_bind] at hrun
  obtain ⟨⟨a, s'⟩, ha, hb⟩ := bind_eq_ok.mp hrun
  obtain ⟨rfl, hQ⟩ := hf a hb
  obtain ⟨rfl, hP⟩ := hm ha
  exact ⟨rfl, hQ hP⟩

theorem Settles.bind_some {P : α → Prop} {m : Convert (Option α)} {f : Option α → Convert β} {b : β}
    (hm : m.Settles fun o => ∃ a, o = some a ∧ P a) (hnone : f none = pure b)
    (hsome : ∀ a, (f (some a)).Settles fun b => P a → Q b) : (m >>= f).Settles Q := by
  refine hm.bind fun o => ?_
  cases o with
  | none => exact hnone ▸ settles_pure fun ⟨_, ha, _⟩ => nomatch ha
  | some a => exact (hsome a).mono fun _ hQ ⟨_, ha, hP⟩ => by cases ha; exact hQ hP

theorem settles_pure_bind {a : α} {f : α → Convert β} (h : (f a).Settles Q) :
    (pure a >>= f).Settles Q := by
  rw [pure_bind]
  exact h

theorem settles_lift {x : Checked α} {f : α → Convert β} (h : ∀ a, x = .ok a → (f a).Settles Q) :
    (liftM x >>= f).Settles Q := by
  intro s b hrun
  rw [StateT.run_bind] at hrun
  obtain ⟨⟨a, s'⟩, ha, hb⟩ := bind_eq_ok.mp hrun
  obtain ⟨a', ha', hpair⟩ := bind_eq_ok.mp ha
  cases hpair
  exact h a ha' hb

theorem settles_get {f : Option CompileError → Convert β}
    (h : ∀ s, (f s).Settles fun b => s = none → Q b) : (get >>= f).Settles Q := by
  intro s b hrun
  obtain ⟨rfl, hQ⟩ := h s hrun
  exact ⟨rfl, hQ rfl⟩

theorem settles_fail {error : CompileError} {P : Unit → Prop} : (Convert.fail error).Settles P := by
  intro s _ hrun
  cases hrun

def Yields (m : Convert α) (P : α → Prop) : Prop := ∃ a, m.run none = .ok (a, none) ∧ P a

theorem yields_pure {a : α} (h : P a) : Yields (pure a) P := ⟨a, rfl, h⟩

theorem Yields.bind {m : Convert α} {f : α → Convert β} (hm : m.Yields P)
    (hf : ∀ a, P a → (f a).Yields Q) : (m >>= f).Yields Q := by
  obtain ⟨a, ha, hP⟩ := hm
  obtain ⟨b, hb, hQ⟩ := hf a hP
  refine ⟨b, ?_, hQ⟩
  rw [StateT.run_bind]
  exact bind_eq_ok.mpr ⟨(a, none), ha, hb⟩

theorem yields_lift {x : Checked α} {f : α → Convert β} {a : α} (hx : x = .ok a)
    (h : (f a).Yields Q) : (liftM x >>= f).Yields Q :=
  Yields.bind (P := (· = a)) ⟨a, by rw [hx]; rfl, rfl⟩ fun b hb => hb ▸ h

theorem yields_get {f : Option CompileError → Convert β} (h : (f none).Yields Q) :
    (get >>= f).Yields Q := h

end Convert

/-! ## Places -/

/-- The field for a captured variable: a copy for a parameter, itself otherwise. -/
def ClosurePlan.slot (plan : ClosurePlan) (d : DefnId) : DefnId := (plan.paramFields.find? d).getD d

namespace Program

/-- The variable is a field of the context of the scope. -/
def LivesIn (p : Program) (plan : ClosurePlan) (d : DefnId) (s : ScopeId) : Prop :=
  p.IsFieldOf (plan.slot d) (.context s)

/-- What gives the context of a scope inside a function. -/
inductive Denotes (p : Program) (plan : ClosurePlan) (f : FunctionId) (s : ScopeId) : Expr → Prop where
  | own {context : ContextClass} {ty : Ty} (owner : p.scopeFunction s = .ok (some f))
    (holds : plan.contexts.find? s = some context) :
    Denotes p plan f s (.variable ty context.localVar)
  | held {closure : ClosureClass} {k : DefnId} {ty ty' : Ty}
    (owner : p.scopeFunction s ≠ .ok (some f)) (converted : plan.closures.find? f = some closure)
    (field : plan.contextField? f s = some k) :
    Denotes p plan f s (.field ty (.variable ty' closure.receiver) k)

/-- A parameter or a local is one of the function. -/
def InFrame (p : Program) (f : FunctionId) (d : DefnId) : Prop :=
  ∀ ⦃defn : Definition⦄, p.definitions[d.index]? = some defn →
    defn.kind = .parameter ∨ defn.kind = .localVar → p.scopeFunction defn.scope = .ok (some f)

/-- What takes the place of a variable. In the arguments of a chain call parameters of the
function are not in its context yet. -/
inductive Replaces (p : Program) (plan : ClosurePlan) (f : FunctionId) (inChain : Bool) (ty : Ty)
    (d : DefnId) : Expr → Prop where
  | stored {s : ScopeId} {context : Expr} (home : p.LivesIn plan d s)
    (path : p.Denotes plan f s context) :
    Replaces p plan f inChain ty d (.field ty context (plan.slot d))
  | early {s : ScopeId} {k : DefnId} (chain : inChain = true) (param : plan.paramFields.find? d = some k)
    (home : p.LivesIn plan d s) (own : p.scopeFunction s = .ok (some f)) :
    Replaces p plan f inChain ty d (.variable ty d)
  | kept (free : ∀ s, ¬ p.LivesIn plan d s) (frame : p.InFrame f d) :
    Replaces p plan f inChain ty d (.variable ty d)

/-- Copies of parameters are in contexts. -/
def CopiesStored (p : Program) (plan : ClosurePlan) : Prop :=
  ∀ ⦃d k⦄, plan.paramFields.find? d = some k → ∃ s, p.IsFieldOf k (.context s)

theorem Planned.copiesStored (h : p.Planned c plan q) : q.CopiesStored plan := fun _ _ hk => by
  obtain ⟨_, _, s, _, hfield⟩ := h.paramFields hk
  exact ⟨s, hfield⟩

theorem Planned.slot_of_not_param (h : p.Planned c plan q)
    (hd : ¬ p.IsParam d) : plan.slot d = d := by
  cases hk : plan.paramFields.find? d with
  | none => rw [ClosurePlan.slot, hk]; rfl
  | some k => exact absurd (h.paramFields hk).1 hd

theorem Planned.slot_of_fresh (h : p.Planned c plan q)
    (hd : p.definitions.size ≤ d.index) : plan.slot d = d := by
  refine h.slot_of_not_param ?_
  rintro ⟨defn, hdefn, _⟩
  exact absurd (lt_of_get hdefn) (by omega)

end Program

namespace ConversionSite

open StackBackend.Convert Program

variable {site : ConversionSite} {s : ScopeId} {name : String}

section

variable (hsite : p.Recoded site.program)
include hsite

theorem contextScope?_eq {o : Option ScopeId} (h : site.contextScope? d = .ok o) :
    ∀ s, p.LivesIn site.plan d s ↔ o = some s := by
  intro s
  unfold contextScope? ClosurePlan.contextScope? at h
  obtain ⟨defn, hdefn, h⟩ := bind_eq_ok.mp h
  rw [hsite.defnAt] at hdefn
  have hslot : p.definitions[(site.plan.slot d).index]? = some defn := entryAt_eq_ok.mp hdefn
  unfold LivesIn IsFieldOf
  cases hkind : defn.kind with
  | field c =>
    rw [hkind] at h
    obtain ⟨cls, hcls, h⟩ := bind_eq_ok.mp h
    rw [hsite.classAt] at hcls
    have hcls' : p.classes[c.index]? = some cls := entryAt_eq_ok.mp hcls
    constructor
    · rintro ⟨_, c', cls', hdefn', hkind', hcls'', horigin⟩
      cases hslot.symm.trans hdefn'
      cases hkind.symm.trans hkind'
      cases hcls'.symm.trans hcls''
      rw [horigin] at h
      cases h
      rfl
    · rintro rfl
      refine ⟨defn, c, cls, hslot, hkind, hcls', ?_⟩
      cases horigin : cls.origin with
      | context t => rw [horigin] at h; cases h; rfl
      | declared | builtin | closure => rw [horigin] at h; cases h
  | global | «parameter» | localVar =>
    rw [hkind] at h
    cases h
    constructor
    · rintro ⟨_, c', cls', hdefn', hkind', _⟩
      cases hslot.symm.trans hdefn'
      cases hkind.symm.trans hkind'
    · nofun

theorem contextScope?_answers (hp : p.Consistent)
    (hd : (site.plan.slot d).index < p.definitions.size) : (site.contextScope? d).Answers := by
  obtain ⟨defn, hdefn⟩ := exists_of_lt hd
  refine answers_bind (hsite.defnAt.trans (defnAt_eq hdefn)) ?_
  cases hkind : defn.kind with
  | field c =>
    obtain ⟨cls, hcls⟩ := exists_of_lt ((hp.defn hdefn).cls hkind)
    refine answers_bind (hsite.classAt.trans (classAt_eq hcls)) ?_
    cases cls.origin <;> exact ⟨_, rfl⟩
  | global | «parameter» | localVar => exact ⟨none, rfl⟩

theorem owns_eq {b : Bool} (h : site.owns s = .ok b) :
    b = true ↔ p.scopeFunction s = .ok (some site.function) := by
  obtain ⟨o, ho, h⟩ := bind_eq_ok.mp h
  rw [hsite.scopeFunction] at ho
  cases h
  rw [ho, decide_eq_true_iff]
  exact ⟨fun heq => by rw [heq], fun heq => Except.ok.inj heq⟩

theorem contextPath?_eq {e : Expr} (h : site.contextPath? s = .ok (some e)) :
    p.Denotes site.plan site.function s e := by
  obtain ⟨b, hb, h⟩ := bind_eq_ok.mp h
  have howns := owns_eq hsite hb
  by_cases hb' : b = true
  · rw [if_pos hb'] at h
    cases hcontext : site.plan.contexts.find? s with
    | none => rw [hcontext] at h; cases h
    | some context =>
      rw [hcontext] at h
      obtain ⟨load, hload, h⟩ := bind_eq_ok.mp h
      cases h
      obtain ⟨ty, rfl⟩ := Pass.load_eq hload
      exact .own (howns.mp hb') hcontext
  · rw [if_neg hb'] at h
    cases hclosure : site.plan.closures.find? site.function with
    | none => rw [hclosure] at h; cases h
    | some closure =>
      cases hfield : site.plan.contextField? site.function s with
      | none => rw [hclosure, hfield] at h; cases h
      | some k =>
        rw [hclosure, hfield] at h
        obtain ⟨defn, _, h⟩ := bind_eq_ok.mp h
        obtain ⟨load, hload, h⟩ := bind_eq_ok.mp h
        cases h
        obtain ⟨ty, rfl⟩ := Pass.load_eq hload
        exact .held (fun heq => hb' (howns.mpr heq)) hclosure hfield

/-! ## Reaching contexts -/

omit hsite in
theorem settles_unreachable {P : Unit → Prop} : (site.unreachable s name).Settles P :=
  settles_lift fun _ _ => settles_lift fun _ _ => settles_fail

theorem settles_contextAccess : (site.contextAccess s name).Settles fun o =>
    ∃ e, o = some e ∧ p.Denotes site.plan site.function s e := by
  refine settles_lift fun o ho => ?_
  cases o with
  | none => exact (settles_unreachable (P := fun _ => False)).bind fun _ => settles_pure False.elim
  | some e => exact settles_pure ⟨e, rfl, contextPath?_eq hsite ho⟩

theorem settles_contextAccesses (scopes : List ScopeId) :
    (site.contextAccesses name scopes).Settles fun o =>
      ∃ es, o = some es ∧ List.Forall₂ (p.Denotes site.plan site.function) scopes es := by
  induction scopes with
  | nil => exact settles_pure ⟨[], rfl, .nil⟩
  | cons s rest ih =>
    refine (settles_contextAccess hsite).bind_some rfl fun e => ih.bind fun o => settles_pure ?_
    rintro ⟨es, rfl, hes⟩ hpath
    exact ⟨e :: es, rfl, .cons hpath hes⟩

theorem settles_contextMember {k : DefnId} : (site.contextMember s name ty k).Settles fun o =>
      ∃ e, o = some (.field ty e k) ∧ p.Denotes site.plan site.function s e := by
  refine (settles_contextAccess hsite).bind fun o => settles_pure ?_
  rintro ⟨e, rfl, hpath⟩
  exact ⟨e, rfl, hpath⟩

theorem settles_frame {defn : Definition} (hdefn : p.definitions[d.index]? = some defn) : (do
      if defn.kind = .parameter || defn.kind = .localVar then
        if !(← site.owns defn.scope) then site.unreachable defn.scope defn.name
      pure none : Convert (Option Expr)).Settles fun o => o = none ∧ p.InFrame site.function d := by
  by_cases hkind : (defn.kind = .parameter || defn.kind = .localVar) = true
  · rw [if_pos hkind]
    refine settles_lift fun b hb => ?_
    cases b with
    | false =>
      exact (settles_unreachable (P := fun _ => False)).bind fun _ => settles_pure False.elim
    | true =>
      refine settles_pure ⟨rfl, fun defn' hdefn' _ => ?_⟩
      cases hdefn.symm.trans hdefn'
      exact (owns_eq hsite hb).mp rfl
  · rw [if_neg hkind]
    refine settles_pure ⟨rfl, fun defn' hdefn' hkind' => absurd ?_ hkind⟩
    cases hdefn.symm.trans hdefn'
    rw [Bool.or_eq_true, decide_eq_true_iff, decide_eq_true_iff]
    exact hkind'

theorem settles_replacement? (hcopies : p.CopiesStored site.plan) :
    (site.replacement? ty d).Settles fun o =>
      p.Replaces site.plan site.function site.inChain ty d (o.getD (.variable ty d)) := by
  refine settles_lift fun defn hdefn => ?_
  rw [hsite.defnAt] at hdefn
  refine settles_lift fun home hhome => ?_
  have hlives := contextScope?_eq hsite hhome
  cases hparam : site.plan.paramFields.find? d with
  | some k =>
    have hslot : site.plan.slot d = k := by rw [ClosurePlan.slot, hparam]; rfl
    cases home with
    | none =>
      obtain ⟨s, hs⟩ := hcopies hparam
      rw [← hslot] at hs
      exact absurd ((hlives s).mp hs) nofun
    | some s =>
      refine settles_lift fun b hb => ?_
      by_cases hearly : (site.inChain && b) = true
      · rw [if_pos hearly]
        obtain ⟨hchain, hb'⟩ := Bool.and_eq_true_iff.mp hearly
        exact settles_pure (.early hchain hparam ((hlives s).mpr rfl) ((owns_eq hsite hb).mp hb'))
      · rw [if_neg hearly]
        refine (settles_contextMember hsite).mono ?_
        rintro o ⟨e, rfl, hpath⟩
        rw [← hslot]
        exact .stored ((hlives s).mpr rfl) hpath
  | none =>
    have hslot : site.plan.slot d = d := by rw [ClosurePlan.slot, hparam]; rfl
    cases home with
    | some s =>
      refine (settles_contextMember hsite).mono ?_
      rintro o ⟨e, rfl, hpath⟩
      have hstored : p.Replaces site.plan site.function site.inChain ty d
          (.field ty e (site.plan.slot d)) := .stored ((hlives s).mpr rfl) hpath
      rw [hslot] at hstored
      exact hstored
    | none =>
      refine (settles_frame hsite (entryAt_eq_ok.mp hdefn)).mono ?_
      rintro o ⟨rfl, hframe⟩
      exact .kept (fun s hs => nomatch (hlives s).mp hs) hframe

theorem settles_closureValue? (hcopies : p.CopiesStored site.plan) {g : FunctionId} :
    (site.closureValue? g).Settles fun o =>
      (o = none ∧ site.plan.closures.find? g = none) ∨
      ∃ closure e, o = some e ∧ site.plan.closures.find? g = some closure ∧
        p.Replaces site.plan site.function site.inChain closure.ty closure.var e := by
  unfold closureValue?
  cases hclosure : site.plan.closures.find? g with
  | none => exact settles_pure (.inl ⟨rfl, rfl⟩)
  | some closure =>
    refine (settles_replacement? hsite hcopies).bind fun o => ?_
    cases o with
    | some e => exact settles_pure fun he => .inr ⟨closure, e, rfl, rfl, he⟩
    | none =>
      refine settles_get fun s => ?_
      cases s with
      | none => exact settles_pure fun _ he => .inr ⟨closure, _, rfl, rfl, he⟩
      | some error => exact settles_pure nofun

end

end ConversionSite

end StackBackend
