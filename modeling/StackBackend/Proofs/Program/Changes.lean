import Mathlib.Data.Set.Basic
import StackBackend.Proofs.Program.Consistent

/-! What the steps that build programs change. Entries are added at the ends of the
tables; of the entries that were there only those named by a step change, and even these
keep what their position, name and scope say. Tables that fit together still do
afterwards. -/

namespace StackBackend

variable {c : ClassDecl} {d : Definition} {f : FunctionDecl} {i : Nat} {α : Type} {a : α}
  {xs ys : Array α}

namespace Program

variable {p q r : Program} {fs fs' : Set FunctionId} {cs cs' : Set ClassId} {ds ds' : Set DefnId}

/-- The tables that hold no functions, classes or definitions. -/
def others (p : Program) : Array TypeParameter × Array GlobalDecl × Array String × Option FunctionId :=
  (p.typeParams, p.globals, p.strings, p.initFunction)

theorem not_new (hsize : ys.size = xs.size)
    (h : ys[i]? = some a) : ¬ xs.size ≤ i := by
  have hlt := lt_of_get h
  omega

theorem not_new_nor {table : Table} (hsize : ys.size = xs.size) (h : ys[i]? = some a) :
    ¬ (xs.size ≤ i ∨ (⟨i⟩ : Ref table) ∈ (∅ : Set (Ref table))) :=
  fun hi => hi.elim (not_new hsize h) nofun

/-- What the second program has that is new or changed is in order. -/
structure NewOk (p : Program) (fs : Set FunctionId) (ds : Set DefnId) (q : Program) : Prop where
  scope : ∀ {i s}, q.scopes[i]? = some s → p.scopes.size ≤ i → q.ScopeOk i s := by
    exact fun h hi => absurd hi (not_new (by simp) h)
  defn : ∀ {i d}, q.definitions[i]? = some d → p.definitions.size ≤ i ∨ ⟨i⟩ ∈ ds →
    q.DefnOk i d := by exact fun h hi => absurd hi (not_new_nor (by simp) h)
  moved : ∀ {d s}, d ∈ ds → ¬ p.IsParameter d s := by exact nofun
  cls : ∀ {i c}, q.classes[i]? = some c → p.classes.size ≤ i → q.ClassOk i c := by
    exact fun h hi => absurd hi (not_new (by simp) h)
  function : ∀ {i f}, q.functions[i]? = some f → p.functions.size ≤ i ∨ ⟨i⟩ ∈ fs →
    q.FunctionOk i f := by exact fun h hi => absurd hi (not_new_nor (by simp) h)

/-- The second program has all that the first one has. Only the given functions, classes
and definitions are changed. -/
structure Changes (p : Program) (fs : Set FunctionId) (cs : Set ClassId) (ds : Set DefnId)
    (q : Program) : Prop where
  scopes : p.KeepsScopes q := by exact ⟨fun {_ s} h => ⟨s.names, h⟩⟩
  functions : ∀ {i f}, p.functions[i]? = some f → ∃ f', q.functions[i]? = some f' ∧
    f'.id = f.id ∧ f'.name = f.name ∧ f'.scope = f.scope ∧ (⟨i⟩ ∉ fs → f' = f) := by
      exact fun h => ⟨_, h, rfl, rfl, rfl, fun _ => rfl⟩
  classes : ∀ {i c}, p.classes[i]? = some c → ∃ c', q.classes[i]? = some c' ∧
    c'.id = c.id ∧ c'.name = c.name ∧ c'.scope = c.scope ∧ c'.origin = c.origin ∧
    (⟨i⟩ ∉ cs → c' = c) := by exact fun h => ⟨_, h, rfl, rfl, rfl, rfl, fun _ => rfl⟩
  defns : ∀ {i d}, p.definitions[i]? = some d → ∃ d', q.definitions[i]? = some d' ∧
    d'.id = d.id ∧ d'.name = d.name ∧ d'.ty = d.ty ∧ d'.isMutable = d.isMutable ∧
    (⟨i⟩ ∉ ds → d' = d) := by exact fun h => ⟨_, h, rfl, rfl, rfl, rfl, fun _ => rfl⟩
  others : q.others = p.others := by rfl

namespace Changes

theorem refl (p : Program) : p.Changes ∅ ∅ ∅ p := {}

theorem mono (h : p.Changes fs cs ds q) (hf : fs ⊆ fs') (hc : cs ⊆ cs') (hd : ds ⊆ ds') :
    p.Changes fs' cs' ds' q where
  scopes := h.scopes
  functions hi := by
    obtain ⟨f', hq, hid, hname, hscope, heq⟩ := h.functions hi
    exact ⟨f', hq, hid, hname, hscope, fun hn => heq fun hm => hn (hf hm)⟩
  classes hi := by
    obtain ⟨c', hq, hid, hname, hscope, horigin, heq⟩ := h.classes hi
    exact ⟨c', hq, hid, hname, hscope, horigin, fun hn => heq fun hm => hn (hc hm)⟩
  defns hi := by
    obtain ⟨d', hq, hid, hname, hty, hmut, heq⟩ := h.defns hi
    exact ⟨d', hq, hid, hname, hty, hmut, fun hn => heq fun hm => hn (hd hm)⟩
  others := h.others

section

variable (h : p.Changes fs cs ds q)
include h

theorem functions_le : p.functions.size ≤ q.functions.size :=
  size_le_of_kept fun hf => let ⟨_, hq, _⟩ := h.functions hf; ⟨_, hq⟩

theorem classes_le : p.classes.size ≤ q.classes.size :=
  size_le_of_kept fun hc => let ⟨_, hq, _⟩ := h.classes hc; ⟨_, hq⟩

theorem defns_le : p.definitions.size ≤ q.definitions.size :=
  size_le_of_kept fun hd => let ⟨_, hq, _⟩ := h.defns hd; ⟨_, hq⟩

theorem trans (h' : q.Changes fs' cs' ds' r)
    (hf : ∀ f ∈ fs', f.index < p.functions.size → f ∈ fs)
    (hc : ∀ c ∈ cs', c.index < p.classes.size → c ∈ cs)
    (hd : ∀ d ∈ ds', d.index < p.definitions.size → d ∈ ds) : p.Changes fs cs ds r where
  scopes := h.scopes.trans h'.scopes
  functions {i f} hi := by
    obtain ⟨f1, hq, hid, hname, hscope, heq⟩ := h.functions hi
    obtain ⟨f2, hr, hid', hname', hscope', heq'⟩ := h'.functions hq
    refine ⟨f2, hr, hid'.trans hid, hname'.trans hname, hscope'.trans hscope, fun hn => ?_⟩
    rw [heq' fun hm => hn (hf _ hm (lt_of_get hi)), heq hn]
  classes {i c} hi := by
    obtain ⟨c1, hq, hid, hname, hscope, horigin, heq⟩ := h.classes hi
    obtain ⟨c2, hr, hid', hname', hscope', horigin', heq'⟩ := h'.classes hq
    refine ⟨c2, hr, hid'.trans hid, hname'.trans hname, hscope'.trans hscope,
      horigin'.trans horigin, fun hn => ?_⟩
    rw [heq' fun hm => hn (hc _ hm (lt_of_get hi)), heq hn]
  defns {i d} hi := by
    obtain ⟨d1, hq, hid, hname, hty, hmut, heq⟩ := h.defns hi
    obtain ⟨d2, hr, hid', hname', hty', hmut', heq'⟩ := h'.defns hq
    refine ⟨d2, hr, hid'.trans hid, hname'.trans hname, hty'.trans hty, hmut'.trans hmut,
      fun hn => ?_⟩
    rw [heq' fun hm => hn (hd _ hm (lt_of_get hi)), heq hn]
  others := h'.others.trans h.others

theorem function_eq (hi : p.functions[i]? = some f) (hn : ⟨i⟩ ∉ fs) :
    q.functions[i]? = some f := by
  obtain ⟨f', hq, _, _, _, heq⟩ := h.functions hi
  rw [hq, heq hn]

theorem class_eq (hi : p.classes[i]? = some c) (hn : ⟨i⟩ ∉ cs) :
    q.classes[i]? = some c := by
  obtain ⟨c', hq, _, _, _, _, heq⟩ := h.classes hi
  rw [hq, heq hn]

theorem defn_eq (hi : p.definitions[i]? = some d) (hn : ⟨i⟩ ∉ ds) :
    q.definitions[i]? = some d := by
  obtain ⟨d', hq, _, _, _, _, heq⟩ := h.defns hi
  rw [hq, heq hn]

end

end Changes

/-! ## Entries that stay as they are -/

section

variable (h : p.Changes fs cs ds q)
include h

theorem ScopeOk.mono {s : Scope} (hs : p.ScopeOk i s) {names : NameTable} :
    q.ScopeOk i { s with names } where
  id := hs.id
  parent ht := hs.parent ht
  cls hc := (hs.cls hc).trans_le h.classes_le
  function hf := (hs.function hf).trans_le h.functions_le

theorem DefnOk.mono (hd : p.DefnOk i d) : q.DefnOk i d where
  id := hd.id
  scope := hd.scope.trans_le h.scopes.size_le
  cls hc := (hd.cls hc).trans_le h.classes_le

theorem ClassOk.mono {c' : ClassDecl} (hc : p.ClassOk i c) (hid : c'.id = c.id)
    (hscope : c'.scope = c.scope) : q.ClassOk i c' where
  id := hid.trans hc.id
  scope := by
    obtain ⟨s, hs, hkind⟩ := hc.scope
    obtain ⟨names, hs'⟩ := h.scopes.kept hs
    exact ⟨{ s with names }, by rw [hscope]; exact hs', hkind⟩

theorem Declares.mono {home : ScopeId} (hh : p.Declares i home) : q.Declares i home := by
  cases hh with
  | top => exact .top
  | member hcls =>
    obtain ⟨c', hc', _, _, hscope, _⟩ := h.classes hcls
    exact hscope ▸ .member hc'
  | nested hg hlt =>
    obtain ⟨f', hf', _, _, hscope, _⟩ := h.functions hg
    exact hscope ▸ .nested hf' hlt

theorem IsParameter.mono {d : DefnId} {s : ScopeId} (hd : p.IsParameter d s) (hn : d ∉ ds) :
    q.IsParameter d s := by
  obtain ⟨defn, hdefn, hkind, hscope⟩ := hd
  exact ⟨defn, h.defn_eq hdefn hn, hkind, hscope⟩

theorem FunctionOk.mono {f' : FunctionDecl} (hf : p.FunctionOk i f)
    (hid : f'.id = f.id) (hscope : f'.scope = f.scope)
    (howner : ∀ {c}, f'.kind.owner? = some c → c.index < q.classes.size)
    (hparams : ∀ d ∈ f'.params, q.IsParameter d f'.scope)
    (hreceiver : f'.kind.owner? ≠ none → f'.params ≠ []) : q.FunctionOk i f' where
  id := hid.trans hf.id
  owner := howner
  scope := by
    obtain ⟨s, home, hs, hkind, hparent, hdeclares⟩ := hf.scope
    obtain ⟨names, hs'⟩ := h.scopes.kept hs
    exact ⟨{ s with names }, home, by rw [hscope]; exact hs', hkind, hparent, hdeclares.mono h⟩
  params := hparams
  receiver := hreceiver

theorem Changes.declaringScope (hp : p.Consistent) {f : FunctionId}
    (hf : f.index < p.functions.size) : q.declaringScope f = p.declaringScope f := by
  obtain ⟨decl, hdecl⟩ := exists_of_lt hf
  obtain ⟨decl', hdecl', _, _, hscope, _⟩ := h.functions hdecl
  obtain ⟨s, _, hs, _⟩ := (hp.function hdecl).scope
  obtain ⟨names, hs'⟩ := h.scopes.kept hs
  have hs'' : q.scopeAt decl'.scope = .ok { s with names } := by
    rw [hscope]
    exact scopeAt_eq hs'
  unfold Program.declaringScope
  rw [functionAt_eq hdecl, functionAt_eq hdecl']
  change (q.scopeAt decl'.scope >>= _) = (p.scopeAt decl.scope >>= _)
  rw [scopeAt_eq hs, hs'']
  rfl

theorem Changes.enclosingFunction (hp : p.Consistent) {f : FunctionId}
    (hf : f.index < p.functions.size) : q.enclosingFunction f = p.enclosingFunction f := by
  obtain ⟨home, _, hhome, hlt, _⟩ := enclosingFunction_ok hp hf
  unfold Program.enclosingFunction
  rw [h.declaringScope hp hf, hhome]
  exact h.scopes.scopeFunction hp hlt

theorem Changes.scopeTypeParams (hp : p.Consistent) {f : FunctionId}
    (hf : f.index < p.functions.size) (hn : f ∉ fs) (hcs : ∀ k, k ∉ cs) :
    q.scopeTypeParams f = p.scopeTypeParams f := by
  obtain ⟨decl, hdecl⟩ := exists_of_lt hf
  have hdecl' := h.function_eq hdecl hn
  cases howner : decl.kind.owner? with
  | none => rw [scopeTypeParams_global hdecl howner, scopeTypeParams_global hdecl' howner]
  | some k =>
    obtain ⟨cls, hcls⟩ := exists_of_lt ((hp.function hdecl).owner howner)
    rw [scopeTypeParams_member hdecl howner hcls,
      scopeTypeParams_member hdecl' howner (h.class_eq hcls (hcs k))]

/-- Tables still fit together if what is new or changed is in order. -/
theorem Consistent.of_changes (hp : p.Consistent) (hnew : p.NewOk fs ds q) : q.Consistent where
  root := by
    obtain ⟨s, hs, hkind⟩ := hp.root
    obtain ⟨names, hs'⟩ := h.scopes.kept hs
    exact ⟨_, hs', hkind⟩
  scope {i s} hs := by
    by_cases hi : i < p.scopes.size
    · obtain ⟨s0, hs0⟩ := exists_of_lt hi
      obtain ⟨names, hs'⟩ := h.scopes.kept hs0
      cases hs.symm.trans hs'
      exact (hp.scope hs0).mono h
    · exact hnew.scope hs (by omega)
  defn {i d} hd := by
    by_cases hi : i < p.definitions.size
    · obtain ⟨d0, hd0⟩ := exists_of_lt hi
      by_cases hm : (⟨i⟩ : DefnId) ∈ ds
      · exact hnew.defn hd (.inr hm)
      · cases hd.symm.trans (h.defn_eq hd0 hm)
        exact (hp.defn hd0).mono h
    · exact hnew.defn hd (.inl (by omega))
  cls {i c} hc := by
    by_cases hi : i < p.classes.size
    · obtain ⟨c0, hc0⟩ := exists_of_lt hi
      obtain ⟨c', hc', hid, _, hsc, _⟩ := h.classes hc0
      cases hc.symm.trans hc'
      exact (hp.cls hc0).mono h hid hsc
    · exact hnew.cls hc (by omega)
  function {i f} hf := by
    by_cases hi : i < p.functions.size
    · obtain ⟨f0, hf0⟩ := exists_of_lt hi
      by_cases hm : (⟨i⟩ : FunctionId) ∈ fs
      · exact hnew.function hf (.inr hm)
      · cases hf.symm.trans (h.function_eq hf0 hm)
        have hok := hp.function hf0
        refine hok.mono h rfl rfl (fun hc => (hok.owner hc).trans_le h.classes_le)
          (fun d hd => (hok.params d hd).mono h fun hm => hnew.moved hm (hok.params d hd)) hok.receiver
    · exact hnew.function hf (.inl (by omega))

end

end Program

end StackBackend
