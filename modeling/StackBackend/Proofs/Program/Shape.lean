import StackBackend.Proofs.Program.Building

/-! How members stand in their classes. A class comes after its superclass, the members it lists
are its own, and no member lies inside another function. -/

namespace StackBackend

open Pass List

variable {f : FunctionId} {i : Nat} {cls : ClassDecl} {decl new : FunctionDecl}
  {change : FunctionDecl → FunctionDecl} {home : ScopeId} {fs : Set FunctionId} {name : String}
  {ty : Ty} {isMutable : Bool} {c : ClassId} {init : Option Expr} {p : Program}

namespace Program

variable {q : Program}

/-! ## Scopes and functions -/

section

variable (hs : q.scopes = p.scopes)
include hs

theorem activationWithin_of_scopes (n : Nat) :
    ∀ {s : ScopeId}, q.activationWithin n s = p.activationWithin n s := by
  induction n with
  | zero => intro s; rfl
  | succ n ih =>
    intro s
    unfold activationWithin scopeAt
    simp only [hs, ih]

theorem scopeFunction_of_scopes {s : ScopeId} : q.scopeFunction s = p.scopeFunction s := by
  unfold scopeFunction activationScope scopeAt
  simp only [hs, activationWithin_of_scopes hs]

section

variable {decl' : FunctionDecl} (hdecl : p.functions[f.index]? = some decl)
  (hdecl' : q.functions[f.index]? = some decl') (hscope : decl'.scope = decl.scope)
include hdecl hdecl' hscope

theorem declaringScope_of_scopes : q.declaringScope f = p.declaringScope f := by
  unfold declaringScope scopeAt
  rw [functionAt_eq hdecl, functionAt_eq hdecl']
  change (entryAt .scopes q.scopes decl'.scope.index >>= _) =
    (entryAt .scopes p.scopes decl.scope.index >>= _)
  rw [hs, hscope]

theorem enclosingFunction_of_scopes : q.enclosingFunction f = p.enclosingFunction f := by
  unfold enclosingFunction
  rw [declaringScope_of_scopes hs hdecl hdecl' hscope]
  simp only [scopeFunction_of_scopes hs]

end

theorem enclosingFunction_congr (hf : q.functions = p.functions) :
    q.enclosingFunction f = p.enclosingFunction f := by
  unfold enclosingFunction declaringScope functionAt scopeAt
  simp only [hs, hf, scopeFunction_of_scopes hs]

end

theorem enclosingFunction_of_class (hp : p.Consistent)
    (hcls : p.classes[i]? = some cls) (hf : p.declaringScope f = .ok (some cls.scope)) :
    p.enclosingFunction f = .ok none := by
  obtain ⟨s, hs, hkind⟩ := (hp.cls hcls).scope
  unfold enclosingFunction
  rw [hf]
  change p.scopeFunction cls.scope = _
  rw [scopeFunction_of_kind hs (by rw [hkind]; nofun), hkind]

theorem enclosingFunction_of_top (hp : p.Consistent)
    (hf : p.declaringScope f = .ok (some globalScope)) : p.enclosingFunction f = .ok none := by
  obtain ⟨s, hs, hkind⟩ := hp.root
  unfold enclosingFunction
  rw [hf]
  change p.scopeFunction globalScope = _
  rw [scopeFunction_of_kind (s := globalScope) hs (by rw [hkind]; nofun), hkind]

/-! ## Members -/

def HasKind (p : Program) (f : FunctionId) (kind : FunctionKind) : Prop :=
  p.functions[f.index]?.map FunctionDecl.kind = some kind

instance {f : FunctionId} {kind : FunctionKind} : Decidable (p.HasKind f kind) :=
  inferInstanceAs (Decidable (_ = _))

theorem hasKind_iff {kind : FunctionKind} :
    p.HasKind f kind ↔ ∃ decl, p.functions[f.index]? = some decl ∧ decl.kind = kind :=
  Option.map_eq_some_iff

def DeclaredIn (p : Program) (d : DefnId) (c : ClassId) : Prop :=
  p.definitions[d.index]?.map Definition.kind = some (.field c)

instance {d : DefnId} {c : ClassId} : Decidable (p.DeclaredIn d c) :=
  inferInstanceAs (Decidable (_ = _))

/-- A class that comes after its superclass and lists members of its own. -/
structure ClassShaped (p : Program) (i : Nat) (cls : ClassDecl) : Prop where
  supertype : ∀ sup ∈ cls.supertype, sup.cls.index < i
  interfaces : cls.interfaces = []
  fields : ∀ field ∈ cls.fields, p.DeclaredIn field.defn ⟨i⟩
  methods : ∀ m ∈ cls.methods, p.HasKind m (.method ⟨i⟩)
  constructors : ∀ m ∈ cls.constructors, p.HasKind m (.constructor ⟨i⟩)
  initializer : ∀ m ∈ cls.initializer, p.HasKind m (.initializer ⟨i⟩)

/-- A program whose members stand in their classes. -/
structure Shaped (p : Program) : Prop where
  cls : ∀ {i cls}, p.classes[i]? = some cls → p.ClassShaped i cls
  member : ∀ {i decl}, p.functions[i]? = some decl → decl.kind.owner? ≠ none →
    p.enclosingFunction ⟨i⟩ = .ok none
  root : 0 < p.classes.size

theorem Shaped.kind_of_nested (h : p.Shaped) {outer : FunctionId}
    (hdecl : p.functions[f.index]? = some decl)
    (houter : p.enclosingFunction f = .ok (some outer)) : decl.kind = .global := by
  cases hkind : decl.kind with
  | global => rfl
  | method c | constructor c | initializer c =>
    have hmember : p.enclosingFunction f = .ok none := h.member hdecl (by rw [hkind]; nofun)
    cases houter.symm.trans hmember

/-! ## Steps -/

section

variable {cs : Set ClassId} {ds : Set DefnId}

def KeepsKinds (p q : Program) : Prop :=
  ∀ ⦃f : FunctionId⦄ ⦃kind : FunctionKind⦄, p.HasKind f kind → q.HasKind f kind

theorem keepsKinds_same (h : q.functions = p.functions) : p.KeepsKinds q := by
  intro f kind hf
  rw [HasKind, h]
  exact hf

theorem keepsKinds_push (h : q.functions = p.functions.push new) : p.KeepsKinds q := by
  intro f kind hf
  obtain ⟨decl, hdecl, hkind⟩ := hasKind_iff.mp hf
  exact hasKind_iff.mpr ⟨decl, by rw [h]; exact getElem?_push_lt hdecl, hkind⟩

theorem declaredIn_same (h : q.definitions = p.definitions) {d : DefnId} {c : ClassId}
    (hd : p.DeclaredIn d c) : q.DeclaredIn d c := by
  rw [DeclaredIn, h]
  exact hd

theorem ClassShaped.of_keeps (h : p.ClassShaped i cls) (hkinds : p.KeepsKinds q)
    (hfields : ∀ {d : DefnId}, p.DeclaredIn d ⟨i⟩ → q.DeclaredIn d ⟨i⟩) : q.ClassShaped i cls where
  supertype := h.supertype
  interfaces := h.interfaces
  fields field hfield := hfields (h.fields field hfield)
  methods m hm := hkinds (h.methods m hm)
  constructors m hm := hkinds (h.constructors m hm)
  initializer m hm := hkinds (h.initializer m hm)

theorem ClassShaped.mono (hc : p.Changes fs cs ∅ q) (hkinds : p.KeepsKinds q)
    (h : p.ClassShaped i cls) : q.ClassShaped i cls := by
  refine h.of_keeps hkinds fun hd => ?_
  obtain ⟨defn, hdefn, hkind⟩ := Option.map_eq_some_iff.mp hd
  rw [DeclaredIn, hc.defn_eq hdefn nofun]
  exact congrArg some hkind

theorem hasKind_of_keeps {decl' : FunctionDecl} (hkinds : p.KeepsKinds q)
    (hdecl : p.functions[i]? = some decl) (hdecl' : q.functions[i]? = some decl') :
    decl'.kind = decl.kind := by
  obtain ⟨decl'', hdecl'', hkind⟩ := hasKind_iff.mp
    (hkinds (f := ⟨i⟩) (hasKind_iff.mpr ⟨decl, hdecl, rfl⟩))
  cases hdecl'.symm.trans hdecl''
  exact hkind

theorem Shaped.of_changes (h : p.Shaped) (hp : p.Consistent) (hc : p.Changes fs cs ∅ q)
    (hkinds : p.KeepsKinds q)
    (hnew : ∀ {i decl}, q.functions[i]? = some decl → p.functions.size ≤ i →
      decl.kind.owner? ≠ none → q.enclosingFunction ⟨i⟩ = .ok none)
    (hcls : ∀ {i cls}, q.classes[i]? = some cls → p.classes.size ≤ i ∨ ⟨i⟩ ∈ cs →
      q.ClassShaped i cls) : q.Shaped where
  cls {i cls} hi := by
    by_cases hold : i < p.classes.size
    · by_cases hm : (⟨i⟩ : ClassId) ∈ cs
      · exact hcls hi (.inr hm)
      · obtain ⟨cls0, hcls0⟩ := exists_of_lt hold
        cases hi.symm.trans (hc.class_eq hcls0 hm)
        exact (h.cls hcls0).mono hc hkinds
    · exact hcls hi (.inl (Nat.le_of_not_lt hold))
  member {i decl} hi howner := by
    by_cases hold : i < p.functions.size
    · obtain ⟨decl0, hdecl0⟩ := exists_of_lt hold
      rw [hasKind_of_keeps hkinds hdecl0 hi] at howner
      rw [hc.enclosingFunction hp (f := ⟨i⟩) hold]
      exact h.member hdecl0 howner
    · exact hnew hi (Nat.le_of_not_lt hold) howner
  root := h.root.trans_le hc.classes_le

theorem Shaped.congr (h : p.Shaped) (hs : q.scopes = p.scopes)
    (hd : q.definitions = p.definitions) (hc : q.classes = p.classes)
    (hf : q.functions = p.functions) : q.Shaped := by
  refine ⟨fun {i cls} hi => ?_, fun {i decl} hi howner => ?_, by rw [hc]; exact h.root⟩
  · rw [hc] at hi
    exact (h.cls hi).of_keeps (keepsKinds_same hf) (declaredIn_same hd)
  · rw [hf] at hi
    rw [enclosingFunction_congr hs hf]
    exact h.member hi howner

end

end Program

namespace Pass

open Program

variable {q : Program}

/-! ## Where functions are declared -/

theorem declaringScope_of_push {s : Scope}
    (hfunctions : q.functions = p.functions.push new) (hscopes : q.scopes = p.scopes.push s)
    (hscope : new.scope = ⟨p.scopes.size⟩) (hparent : s.parent = some home) :
    q.declaringScope ⟨p.functions.size⟩ = .ok (some home) := by
  have hdecl : q.functions[p.functions.size]? = some new := by
    rw [hfunctions]
    exact Array.getElem?_push_size
  have hs : q.scopes[new.scope.index]? = some s := by
    rw [hscopes, hscope]
    exact Array.getElem?_push_size
  unfold declaringScope
  rw [functionAt_eq (f := ⟨p.functions.size⟩) hdecl]
  change (q.scopeAt new.scope >>= _) = _
  rw [scopeAt_eq hs]
  exact congrArg Except.ok hparent

/-! ## Members that are added -/

section

variable (hp : p.Consistent) (h : p.Shaped) (hcls : p.classes[c.index]? = some cls)
include hp h hcls

theorem shaped_of_member {list : ClassDecl → ClassDecl} (hq : p.MemberAdded c list new q)
    (hhome : q.declaringScope new.id = .ok (some cls.scope))
    (hlist : ∀ cls, q.HasKind new.id new.kind → q.ClassShaped c.index cls →
      q.ClassShaped c.index (list cls)) : q.Shaped := by
  have hb := hq.builds.changes
  have hkinds : p.KeepsKinds q := keepsKinds_push hq.functions
  refine h.of_changes hp hb hkinds (fun {i decl} hi hle _ => ?_) fun {i cls} hi hchanged => ?_
  · rw [hq.functions] at hi
    obtain ⟨rfl, rfl⟩ := getElem?_push_new hi hle
    obtain ⟨cls', hcls', _, _, hscope, _⟩ := hb.classes hcls
    rw [hq.fresh, ← hscope] at hhome
    exact enclosingFunction_of_class hq.builds.consistent hcls' hhome
  · rw [hq.classes] at hi
    rcases hchanged with hle | hc
    · exact absurd hle (not_new Array.size_modify hi)
    · obtain rfl : (⟨i⟩ : ClassId) = c := hc
      rw [Array.getElem?_modify, if_pos rfl] at hi
      obtain ⟨cls0, hcls0, rfl⟩ := Option.map_eq_some_iff.mp hi
      exact hlist cls0 (hasKind_iff.mpr ⟨new, hq.entry, rfl⟩) ((h.cls hcls0).mono hb hkinds)

omit hp h in
theorem declaringScope_of_addConstructor (hgives : (addConstructor c).Gives p f q) :
    q.declaringScope f = .ok (some cls.scope) := by
  obtain ⟨rfl, rfl⟩ := (gives_addConstructor hcls).mp hgives
  exact declaringScope_of_push rfl rfl rfl rfl

end

end Pass

namespace Program

/-- Whether members stand in their classes can be found out. -/
theorem Shaped.of_checks (hclasses : ∀ i < p.classes.size, ∀ cls ∈ p.classes[i]?,
      (∀ sup ∈ cls.supertype, sup.cls.index < i) ∧ cls.interfaces = [] ∧
      (∀ field ∈ cls.fields, p.DeclaredIn field.defn ⟨i⟩) ∧
      (∀ m ∈ cls.methods, p.HasKind m (.method ⟨i⟩)) ∧
      (∀ m ∈ cls.constructors, p.HasKind m (.constructor ⟨i⟩)) ∧
      ∀ m ∈ cls.initializer, p.HasKind m (.initializer ⟨i⟩))
    (hmembers : ∀ i < p.functions.size, ∀ decl ∈ p.functions[i]?, decl.kind.owner? ≠ none →
      (p.enclosingFunction ⟨i⟩).toOption = some none)
    (hroot : 0 < p.classes.size) : p.Shaped where
  cls {i cls} hi := by
    obtain ⟨hsup, hinterfaces, hfields, hmethods, hconstructors, hinitializer⟩ :=
      hclasses i (lt_of_get hi) cls hi
    exact ⟨hsup, hinterfaces, hfields, hmethods, hconstructors, hinitializer⟩
  member hi howner := Checked.eq_ok_of_toOption (hmembers _ (lt_of_get hi) _ hi howner)
  root := hroot

end Program

end StackBackend
