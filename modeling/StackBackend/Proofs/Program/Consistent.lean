import StackBackend.Proofs.Program.PassGives
import StackBackend.Program.Scopes

/-! Programs whose tables fit together. Entries stand where their ids say and refer to
entries that exist, scopes lie in earlier scopes, and functions are declared at the top
level, in a class or in an earlier function. Questions about scopes then have answers,
and these do not change when entries are added. -/

namespace StackBackend

variable {s : ScopeId} {scope : Scope} {f : FunctionId} {decl : FunctionDecl} {i : Nat}

namespace Program

variable {p q : Program}

/-! ## Entries -/

structure ScopeOk (p : Program) (i : Nat) (s : Scope) : Prop where
  id : s.id = ⟨i⟩
  parent : ∀ {t}, s.parent = some t → t.index < i
  cls : ∀ {c}, s.kind = .ofClass c → c.index < p.classes.size
  function : ∀ {f}, s.kind = .function f → f.index < p.functions.size

structure DefnOk (p : Program) (i : Nat) (d : Definition) : Prop where
  id : d.id = ⟨i⟩
  scope : d.scope.index < p.scopes.size
  cls : ∀ {c}, d.kind = .field c → c.index < p.classes.size

structure ClassOk (p : Program) (i : Nat) (c : ClassDecl) : Prop where
  id : c.id = ⟨i⟩
  scope : ∃ s, p.scopes[c.scope.index]? = some s ∧ s.kind = .ofClass ⟨i⟩

/-- A scope that function `i` may be declared in. -/
inductive Declares (p : Program) (i : Nat) : ScopeId → Prop where
  | top : Declares p i globalScope
  | member {c : Nat} {cls : ClassDecl} (h : p.classes[c]? = some cls) : Declares p i cls.scope
  | nested {g : Nat} {outer : FunctionDecl} (h : p.functions[g]? = some outer) (before : g < i) :
    Declares p i outer.scope

/-- The definition is a parameter with the given scope. -/
def IsParameter (p : Program) (d : DefnId) (s : ScopeId) : Prop :=
  ∃ defn, p.definitions[d.index]? = some defn ∧ defn.kind = .parameter ∧ defn.scope = s

structure FunctionOk (p : Program) (i : Nat) (f : FunctionDecl) : Prop where
  id : f.id = ⟨i⟩
  owner : ∀ {c}, f.kind.owner? = some c → c.index < p.classes.size
  scope : ∃ s home, p.scopes[f.scope.index]? = some s ∧ s.kind = .function ⟨i⟩ ∧
    s.parent = some home ∧ p.Declares i home
  params : ∀ d ∈ f.params, p.IsParameter d f.scope
  /-- Members have a receiver. -/
  receiver : f.kind.owner? ≠ none → f.params ≠ []

/-- The tables of a program fit together. -/
structure Consistent (p : Program) : Prop where
  root : ∃ s, p.scopes[0]? = some s ∧ s.kind = .global
  scope : ∀ {i s}, p.scopes[i]? = some s → p.ScopeOk i s
  defn : ∀ {i d}, p.definitions[i]? = some d → p.DefnOk i d
  cls : ∀ {i c}, p.classes[i]? = some c → p.ClassOk i c
  function : ∀ {i f}, p.functions[i]? = some f → p.FunctionOk i f

theorem Consistent.congr (hp : p.Consistent) (hs : q.scopes = p.scopes)
    (hd : q.definitions = p.definitions) (hc : q.classes = p.classes)
    (hf : q.functions = p.functions) : q.Consistent := by
  obtain ⟨scopes, definitions, classes, functions, _, _, _, _⟩ := p
  obtain ⟨_, _, _, _, _, _, _, _⟩ := q
  cases hs
  cases hd
  cases hc
  cases hf
  refine ⟨hp.root, fun h => ?_, fun h => ?_, fun h => ?_, fun h => ?_⟩
  · exact ⟨(hp.scope h).id, (hp.scope h).parent, (hp.scope h).cls, (hp.scope h).function⟩
  · exact ⟨(hp.defn h).id, (hp.defn h).scope, (hp.defn h).cls⟩
  · exact ⟨(hp.cls h).id, (hp.cls h).scope⟩
  · obtain ⟨s, home, hscope, hkind, hparent, hdeclares⟩ := (hp.function h).scope
    refine ⟨(hp.function h).id, (hp.function h).owner, ⟨s, home, hscope, hkind, hparent, ?_⟩,
      (hp.function h).params, (hp.function h).receiver⟩
    cases hdeclares with
    | top => exact .top
    | member hcls => exact .member hcls
    | nested hg hlt => exact .nested hg hlt

/-! ## Lookups -/

theorem scopeAt_eq (h : p.scopes[s.index]? = some scope) : p.scopeAt s = .ok scope :=
  entryAt_eq_ok.mpr h

theorem defnAt_eq {d : DefnId} {defn : Definition} (h : p.definitions[d.index]? = some defn) :
    p.defnAt d = .ok defn :=
  entryAt_eq_ok.mpr h

theorem classAt_eq {c : ClassId} {cls : ClassDecl} (h : p.classes[c.index]? = some cls) :
    p.classAt c = .ok cls :=
  entryAt_eq_ok.mpr h

theorem functionAt_eq (h : p.functions[f.index]? = some decl) : p.functionAt f = .ok decl :=
  entryAt_eq_ok.mpr h

theorem exists_of_lt {α : Type} {entries : Array α} (h : i < entries.size) :
    ∃ a, entries[i]? = some a :=
  ⟨_, Array.getElem?_eq_getElem h⟩

theorem lt_of_get {α : Type} {entries : Array α} {a : α} (h : entries[i]? = some a) :
    i < entries.size :=
  (Array.getElem?_eq_some_iff.mp h).1

theorem size_le_of_kept {α β : Type} {xs : Array α} {ys : Array β}
    (h : ∀ {i : Nat} {a}, xs[i]? = some a → ∃ b, ys[i]? = some b) : xs.size ≤ ys.size := by
  by_contra hlt
  obtain ⟨_, ha⟩ := exists_of_lt (Nat.lt_of_not_le hlt)
  obtain ⟨_, hb⟩ := h ha
  exact Nat.lt_irrefl _ (lt_of_get hb)

/-! ## Scopes -/

/-- The second program has the scopes of the first, with names of its own. -/
structure KeepsScopes (p q : Program) : Prop where
  kept : ∀ {i : Nat} {s : Scope}, p.scopes[i]? = some s →
    ∃ names, q.scopes[i]? = some { s with names }

theorem KeepsScopes.trans {r : Program} (h : p.KeepsScopes q) (h' : q.KeepsScopes r) :
    p.KeepsScopes r where
  kept {i s} hs := by
    obtain ⟨names, hq⟩ := h.kept hs
    obtain ⟨names', hr⟩ := h'.kept hq
    exact ⟨names', hr⟩

theorem KeepsScopes.size_le (h : p.KeepsScopes q) : p.scopes.size ≤ q.scopes.size :=
  size_le_of_kept fun hs => let ⟨_, hq⟩ := h.kept hs; ⟨_, hq⟩

theorem scopeFunction_of_activation {a : ScopeId} (hact : p.activationScope s = .ok a)
    (hscope : p.scopes[a.index]? = some scope) :
    p.scopeFunction s = .ok (match scope.kind with
      | .function f => some f
      | _ => none) := by
  unfold scopeFunction
  rw [hact]
  change (p.scopeAt a >>= _) = _
  rw [scopeAt_eq hscope]
  change (match scope.kind with
    | .function f => pure (some f)
    | _ => pure none : Checked _) = _
  split <;> rfl

theorem activationWithin_succ (hscope : p.scopes[s.index]? = some scope) (n : Nat) :
    p.activationWithin (n + 1) s = match scope.kind, scope.parent with
      | .block, some parent => p.activationWithin n parent
      | _, _ => pure s := by
  rw [activationWithin, scopeAt_eq hscope]
  rfl

theorem scopeFunction_of_kind (hscope : p.scopes[s.index]? = some scope)
    (hblock : scope.kind ≠ .block) :
    p.scopeFunction s = .ok (match scope.kind with
      | .function f => some f
      | _ => none) := by
  have hact : p.activationScope s = .ok s := by
    rw [activationScope, activationWithin_succ hscope]
    split
    · rename_i hkind _
      exact (hblock hkind).elim
    · rfl
  exact scopeFunction_of_activation hact hscope

theorem scope_lt_of_scopeFunction {o : Option FunctionId}
    (h : p.scopeFunction s = .ok o) : s.index < p.scopes.size := by
  obtain ⟨a, ha, _⟩ := Checked.bind_eq_ok.mp h
  obtain ⟨scope, hscope, _⟩ := Checked.bind_eq_ok.mp ha
  exact lt_size_of_entryAt hscope

section

variable (hp : p.Consistent)
include hp

/-- A walk to the activation ends before its bound does, so the bound does not matter. -/
theorem activationWithin_congr (h : p.KeepsScopes q) (n : Nat) :
    ∀ {s : ScopeId} {m : Nat}, s.index < p.scopes.size → s.index < n → s.index < m →
      q.activationWithin n s = p.activationWithin m s := by
  induction n with
  | zero => intro s m _ hn; omega
  | succ n ih =>
    intro s m hs hn hm
    obtain ⟨m, rfl⟩ : ∃ k, m = k + 1 := ⟨m - 1, by omega⟩
    obtain ⟨scope, hscope⟩ := exists_of_lt hs
    obtain ⟨names, hscope'⟩ := h.kept hscope
    rw [activationWithin_succ hscope, activationWithin_succ hscope']
    dsimp only
    split
    · rename_i parent _ hparent
      have hlt := (hp.scope hscope).parent hparent
      exact ih (by omega) (by omega) (by omega)
    · rfl

theorem activationWithin_ok (n : Nat) : ∀ {s : ScopeId}, s.index < p.scopes.size →
    ∃ a, p.activationWithin n s = .ok a ∧ a.index < p.scopes.size := by
  induction n with
  | zero => intro s hs; exact ⟨s, rfl, hs⟩
  | succ n ih =>
    intro s hs
    obtain ⟨scope, hscope⟩ := exists_of_lt hs
    rw [activationWithin_succ hscope]
    split
    · rename_i parent _ hparent
      have hlt := (hp.scope hscope).parent hparent
      exact ih (by omega)
    · exact ⟨s, rfl, hs⟩

theorem scopeFunction_ok (hs : s.index < p.scopes.size) :
    ∃ o, p.scopeFunction s = .ok o ∧ ∀ f ∈ o, f.index < p.functions.size := by
  obtain ⟨a, ha, hlt⟩ := activationWithin_ok hp (p.scopes.size + 1) hs
  obtain ⟨scope, hscope⟩ := exists_of_lt hlt
  rw [scopeFunction_of_activation ha hscope]
  cases hkind : scope.kind with
  | function f => exact ⟨some f, rfl, fun g hg => by cases hg; exact (hp.scope hscope).function hkind⟩
  | global => exact ⟨none, rfl, nofun⟩
  | ofClass c => exact ⟨none, rfl, nofun⟩
  | block => exact ⟨none, rfl, nofun⟩

theorem KeepsScopes.scopeFunction (h : p.KeepsScopes q)
    (hs : s.index < p.scopes.size) : q.scopeFunction s = p.scopeFunction s := by
  have hsize := h.size_le
  have hact : q.activationScope s = p.activationScope s :=
    activationWithin_congr hp h _ hs (by omega) (by omega)
  obtain ⟨a, ha, hlt⟩ := activationWithin_ok hp (p.scopes.size + 1) hs
  have ha' : p.activationScope s = .ok a := ha
  obtain ⟨scope, hscope⟩ := exists_of_lt hlt
  obtain ⟨names, hscope'⟩ := h.kept hscope
  unfold Program.scopeFunction
  rw [hact, ha']
  change (q.scopeAt a >>= _) = (p.scopeAt a >>= _)
  rw [scopeAt_eq hscope, scopeAt_eq hscope']
  rfl

/-! ## Functions -/

theorem scopeFunction_function
    (h : p.functions[f.index]? = some decl) : p.scopeFunction decl.scope = .ok (some f) := by
  obtain ⟨s, _, hs, hkind, _⟩ := (hp.function h).scope
  rw [scopeFunction_of_kind hs (by rw [hkind]; nofun), hkind]

theorem enclosingFunction_ok (hf : f.index < p.functions.size) :
    ∃ home o, p.declaringScope f = .ok (some home) ∧ home.index < p.scopes.size ∧
      p.scopeFunction home = .ok o ∧ p.enclosingFunction f = .ok o ∧ ∀ g ∈ o, g.index < f.index := by
  obtain ⟨decl, hdecl⟩ := exists_of_lt hf
  obtain ⟨s, home, hs, hkind, hparent, hdeclares⟩ := (hp.function hdecl).scope
  have hdeclaring : p.declaringScope f = .ok (some home) := by
    unfold declaringScope
    rw [functionAt_eq hdecl]
    change (p.scopeAt decl.scope >>= _) = _
    rw [scopeAt_eq hs]
    exact congrArg Except.ok hparent
  have henclosing : p.enclosingFunction f = p.scopeFunction home := by
    unfold enclosingFunction
    rw [hdeclaring]
    rfl
  rw [henclosing]
  have hlt := (hp.scope hs).parent hparent
  have hsize := lt_of_get hs
  suffices ∃ o, p.scopeFunction home = .ok o ∧ ∀ g ∈ o, g.index < f.index by
    obtain ⟨o, ho, hg⟩ := this
    exact ⟨home, o, hdeclaring, by omega, ho, ho, hg⟩
  cases hdeclares with
  | top =>
    obtain ⟨root, hroot, hglobal⟩ := hp.root
    refine ⟨none, ?_, nofun⟩
    rw [scopeFunction_of_kind (s := globalScope) hroot (by rw [hglobal]; nofun), hglobal]
  | member hcls =>
    obtain ⟨s', hs', hkind'⟩ := (hp.cls hcls).scope
    refine ⟨none, ?_, nofun⟩
    rw [scopeFunction_of_kind hs' (by rw [hkind']; nofun), hkind']
  | @nested g outer houter hbefore =>
    refine ⟨some ⟨g⟩, scopeFunction_function hp (f := ⟨g⟩) houter, fun g' hg' => ?_⟩
    cases hg'
    exact hbefore

end

/-! ## Type parameters -/

section

variable (hdecl : p.functions[f.index]? = some decl)
include hdecl

theorem scopeTypeParams_eq : p.scopeTypeParams f = match decl.kind.owner? with
    | some c => p.classAt c >>= fun cls => pure (cls.typeParams ++ decl.typeParams)
    | none => pure decl.typeParams := by
  unfold scopeTypeParams
  rw [functionAt_eq hdecl]
  rfl

theorem scopeTypeParams_global (howner : decl.kind.owner? = none) :
    p.scopeTypeParams f = .ok decl.typeParams := by
  rw [scopeTypeParams_eq hdecl, howner]
  rfl

theorem scopeTypeParams_member {k : ClassId} {cls : ClassDecl} (howner : decl.kind.owner? = some k)
    (hcls : p.classes[k.index]? = some cls) :
    p.scopeTypeParams f = .ok (cls.typeParams ++ decl.typeParams) := by
  rw [scopeTypeParams_eq hdecl, howner]
  change (p.classAt k >>= _) = _
  rw [classAt_eq hcls]
  rfl

end

theorem scopeTypeParams_ok (hp : p.Consistent) (hf : f.index < p.functions.size) :
    ∃ ts, p.scopeTypeParams f = .ok ts := by
  obtain ⟨decl, hdecl⟩ := exists_of_lt hf
  cases howner : decl.kind.owner? with
  | none => exact ⟨_, scopeTypeParams_global hdecl howner⟩
  | some c =>
    obtain ⟨cls, hcls⟩ := exists_of_lt ((hp.function hdecl).owner howner)
    exact ⟨_, scopeTypeParams_member hdecl howner hcls⟩

end Program

end StackBackend
