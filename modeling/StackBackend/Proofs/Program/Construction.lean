import StackBackend.Proofs.Program.Mentions
import StackBackend.Proofs.Program.Shape

/-! Programs that are built step by step. Each step is given references that were handed
out before. The tables of every program built so fit together, its expressions name only
what is there, and it has no classes other than builtin and declared ones. -/

namespace StackBackend

open Pass List

variable {fs : Set FunctionId} {cs : Set ClassId} {ds : Set DefnId} {p : Program}
  {change : ClassDecl → ClassDecl} {name : String} {ty : Ty} {isMutable : Bool}
  {supertype : Option ClassTy} {c : ClassId} {init : Option Expr} {f : FunctionId} {n : Nat}

def Node.defns : Node → List DefnId
  | .expr (.variable _ d) | .expr (.field _ _ d) | .expr (.initField _ _ d _)
  | .stmt (.declare d _) => [d]
  | .clause c => c.binding.toList
  | _ => []

def Node.knownIn (p : Program) (n : Node) : Bool :=
  n.mentions.all (·.inRange p) && n.defns.all (·.index < p.definitions.size)

def Expr.knownIn (p : Program) (e : Expr) : Bool := e.nodes.all (·.knownIn p)

/-- One step of building a program. -/
inductive Construction where
  | scope (parent : Option ScopeId) (kind : ScopeKind)
  | definition (name : String) (kind : DefnKind) (ty : Ty) (isMutable : Bool) (scope : ScopeId)
  | typeParam (name : String)
  | cls (name : String)
  | subclass (name : String) (supertype : ClassTy)
  | classTypeParam (c : ClassId) (name : String)
  | field (c : ClassId) (name : String) (ty : Ty) (isMutable : Bool) (init : Option Expr)
  | function (name : String) (returnTy : Ty)
  | nestedFunction (parent : FunctionId) (name : String) (returnTy : Ty)
  | method (c : ClassId) (name : String) (returnTy : Ty)
  | constructor (c : ClassId)
  | functionTypeParam (f : FunctionId) (name : String)
  | param (f : FunctionId) (name : String) (ty : Ty) (isMutable : Bool)
  | localVar (f : FunctionId) (name : String) (ty : Ty) (isMutable : Bool)
  | blockScope (parent : ScopeId)
  | blockLocal (scope : ScopeId) (name : String) (ty : Ty) (isMutable : Bool)
  | global (name : String) (ty : Ty) (isMutable : Bool) (init : Option Expr)
  | body (f : FunctionId) (body : Expr)
  | chain (f : FunctionId) (chain : Chain)

def Construction.perform : Construction → Pass Unit
  | .scope parent kind => discard (Pass.addScope parent kind)
  | .definition name kind ty isMutable s =>
    discard (Pass.addDefinition name kind ty isMutable s)
  | .typeParam name => discard (Pass.addTypeParam name)
  | .cls name => discard (Pass.addClass name)
  | .subclass name supertype => discard (Pass.addSubclass name supertype)
  | .classTypeParam c name => discard (Pass.addClassTypeParam c name)
  | .field c name ty isMutable init => discard (Pass.addField c name ty isMutable init)
  | .function name returnTy => discard (Pass.addFunction name returnTy)
  | .nestedFunction parent name returnTy => discard (Pass.addNestedFunction parent name returnTy)
  | .method c name returnTy => discard (Pass.addMethod c name returnTy)
  | .constructor c => discard (Pass.addConstructor c)
  | .functionTypeParam f name => discard (Pass.addFunctionTypeParam f name)
  | .param f name ty isMutable => discard (Pass.addParam f name ty isMutable)
  | .localVar f name ty isMutable => discard (Pass.addLocal f name ty isMutable)
  | .blockScope parent => discard (Pass.addBlockScope parent)
  | .blockLocal s name ty isMutable => discard (Pass.addBlockLocal s name ty isMutable)
  | .global name ty isMutable init => discard (Pass.addGlobal name ty isMutable init)
  | .body f e => Pass.setBody f e
  | .chain f c => Pass.setChain f c

def Program.knowsKind (p : Program) : ScopeKind → Bool
  | .ofClass c => c.index < p.classes.size
  | .function f => f.index < p.functions.size
  | .global | .block => true

def Construction.known (p : Program) : Construction → Bool
  | .scope parent kind => parent.all (·.index < p.scopes.size) && p.knowsKind kind
  | .definition _ kind _ _ s =>
    decide (s.index < p.scopes.size) && match kind with
      | .field c => decide (c.index < p.classes.size)
      | _ => true
  | .typeParam _ | .cls _ | .function _ _ => true
  | .subclass _ supertype => supertype.mentions.all (·.inRange p)
  | .classTypeParam c _ | .method c _ _ | .constructor c => c.index < p.classes.size
  | .field c _ _ _ init => decide (c.index < p.classes.size) && init.all (·.knownIn p)
  | .nestedFunction f _ _ | .functionTypeParam f _ | .param f _ _ _ | .localVar f _ _ _ =>
    f.index < p.functions.size
  | .blockScope s | .blockLocal s _ _ _ => s.index < p.scopes.size
  | .global _ _ _ init => init.all (·.knownIn p)
  | .body f e => decide (f.index < p.functions.size) && e.knownIn p
  | .chain f c =>
    decide (f.index < p.functions.size) && c.call.args.all (·.knownIn p) &&
      c.fieldParams.all fun (d, k) =>
        decide (d.index < p.definitions.size) && decide (k.index < p.definitions.size)

inductive Constructed : Program → Prop where
  | initial : Constructed .initial
  | step {p q : Program} {c : Construction} (h : Constructed p) (known : c.known p = true)
    (performed : c.perform.Gives p () q) : Constructed q

namespace Program

variable {q r : Program}

structure Enlarges (p q : Program) : Prop where
  scopes : p.scopes.size ≤ q.scopes.size
  definitions : p.definitions.size ≤ q.definitions.size
  classes : p.classes.size ≤ q.classes.size
  functions : p.functions.size ≤ q.functions.size
  typeParams : p.typeParams.size ≤ q.typeParams.size

theorem Changes.enlarges (h : p.Changes fs cs ds q) : p.Enlarges q where
  scopes := h.scopes.size_le
  definitions := h.defns_le
  classes := h.classes_le
  functions := h.functions_le
  typeParams := by
    have ht : q.typeParams = p.typeParams := congrArg Prod.fst h.others
    rw [ht]

theorem inRange_mono (h : p.Enlarges q) {m : Mention} (hm : m.inRange p = true) :
    m.inRange q = true := by
  have hc := h.classes
  have hf := h.functions
  have ht := h.typeParams
  cases m <;> simp only [Mention.inRange, decide_eq_true_eq] at hm ⊢ <;> omega

end Program

theorem Expr.knownIn_mono {q : Program} (h : p.Enlarges q) {e : Expr} (he : e.knownIn p = true) :
    e.knownIn q = true := by
  have hd := h.definitions
  simp only [Expr.knownIn, Node.knownIn, all_eq_true, Bool.and_eq_true,
    decide_eq_true_eq] at he ⊢
  intro n hn
  obtain ⟨hmentions, hdefns⟩ := he n hn
  refine ⟨fun m hm => Program.inRange_mono h (hmentions m hm), fun d hd' => ?_⟩
  have hlt := hdefns d hd'
  omega

namespace Program

variable {q : Program}

/-- A program as it is written. No class of it was made by conversion, and its expressions
name what is there. -/
structure Source (p : Program) : Prop where
  consistent : p.Consistent
  origin : ∀ {i : Nat} {c : ClassDecl}, p.classes[i]? = some c → c.origin = .declared ∨ c.origin = .builtin
  code : ∀ {i : Nat} {f : FunctionDecl}, p.functions[i]? = some f → ∀ e ∈ f.exprs, e.knownIn p = true
  fields : ∀ {i : Nat} {c : ClassDecl}, p.classes[i]? = some c → ∀ field ∈ c.fields, ∀ e ∈ field.init,
    e.knownIn p = true
  globals : ∀ g ∈ p.globals, ∀ e ∈ g.init, e.knownIn p = true
  strings : p.strings = #[]
  /-- No parameter is listed twice. -/
  params : ∀ {i : Nat} {f : FunctionDecl}, p.functions[i]? = some f → f.params.Nodup

end Program

/-! ## What a step adds -/

/-- Entries of the second table come from entries of the first one, or one is new. -/
def Extended {α : Type} (From : Nat → α → α → Prop) (New : α → Prop) (xs ys : Array α) : Prop :=
  ∀ ⦃i : Nat⦄ ⦃b : α⦄, ys[i]? = some b →
    (∃ a, xs[i]? = some a ∧ From i a b) ∨ i = xs.size ∧ New b

namespace Extended

variable {α : Type} {From : Nat → α → α → Prop} {New : α → Prop} {xs : Array α}
  (hrefl : ∀ i a, From i a a)
include hrefl

theorem refl : Extended From New xs xs := fun i b hb => .inl ⟨b, hb, hrefl i b⟩

theorem push {a : α} (h : New a) : Extended From New xs (xs.push a) := by
  intro i b hb
  by_cases hi : i < xs.size
  · rw [Array.getElem?_push_lt hi, ← Array.getElem?_eq_getElem hi] at hb
    exact .inl ⟨b, hb, hrefl i b⟩
  · obtain ⟨rfl, rfl⟩ := Program.getElem?_push_new hb (Nat.le_of_not_lt hi)
    exact .inr ⟨rfl, h⟩

theorem modify {j : Nat} {change : α → α} (h : ∀ {a}, xs[j]? = some a → From j a (change a)) :
    Extended From New xs (xs.modify j change) := by
  intro i b hb
  rw [Array.getElem?_modify] at hb
  split at hb
  · obtain ⟨a, ha, rfl⟩ := Option.map_eq_some_iff.mp hb
    subst i
    exact .inl ⟨a, ha, h ha⟩
  · exact .inl ⟨b, hb, hrefl i b⟩

end Extended

/-- The second list goes on with what is new, if with anything. -/
def Program.GoesOn (new : Option TypeParamId) (ts ts' : List TypeParamId) : Prop :=
  ts' = ts ∨ ∃ t, new = some t ∧ ts' = ts ++ [t]

open Program

/-- A class that may list more: a type parameter, or members of its own. -/
structure ClassDecl.Grown (p q : Program) (new : Option TypeParamId) (i : Nat)
    (old cls : ClassDecl) : Prop where
  origin : cls.origin = old.origin := by rfl
  supertype : cls.supertype = old.supertype := by rfl
  interfaces : cls.interfaces = old.interfaces := by rfl
  initializer : cls.initializer = old.initializer := by rfl
  typeParams : GoesOn new old.typeParams cls.typeParams := by exact .inl rfl
  fields : ∀ field ∈ cls.fields, field ∈ old.fields ∨
    q.DeclaredIn field.defn ⟨i⟩ ∧ ∀ e ∈ field.init, e.knownIn p = true := by exact fun _ => .inl
  methods : ∀ m ∈ cls.methods, m ∈ old.methods ∨ q.HasKind m (.method ⟨i⟩) := by exact fun _ => .inl
  constructors : ∀ m ∈ cls.constructors, m ∈ old.constructors ∨ q.HasKind m (.constructor ⟨i⟩) := by
    exact fun _ => .inl

/-- A class without members that names its superclass with what is there. -/
def ClassDecl.Fresh (p : Program) (cls : ClassDecl) : Prop :=
  ∃ id name supertype scope, cls = newClass id name supertype scope .declared ∧
    ∀ st ∈ supertype, ∀ m ∈ st.mentions, m.inRange p = true

/-- A function with the code it had, or with code that is known. -/
structure FunctionDecl.Grown (p : Program) (new : Option TypeParamId) (_ : Nat)
    (old decl : FunctionDecl) : Prop where
  kind : decl.kind = old.kind := by rfl
  typeParams : GoesOn new old.typeParams decl.typeParams := by exact .inl rfl
  params : decl.params = old.params ∨ decl.params.Nodup := by exact .inl rfl
  code : ∀ e ∈ decl.exprs, e ∈ old.exprs ∨ e.knownIn p = true := by exact fun _ => .inl

structure FunctionDecl.Fresh (p q : Program) (decl : FunctionDecl) : Prop where
  place : decl.kind.owner? = none ∨
    decl.typeParams = [] ∧ q.enclosingFunction ⟨p.functions.size⟩ = .ok none
  params : decl.params.Nodup
  code : decl.exprs = []

namespace Program

variable {q : Program} {inClass inMember : Option TypeParamId}

/-- What one step does to a program. It lists at most one type parameter, which is new. -/
structure Grown (p q : Program) (inClass inMember : Option TypeParamId) : Prop where
  consistent : q.Consistent
  enlarges : p.Enlarges q
  new : ∀ {t}, inClass = some t ∨ inMember = some t →
    t.index = p.typeParams.size ∧ t.index < q.typeParams.size
  one : inClass = none ∨ inMember = none
  definitions : ∀ {i : Nat} {d : Definition}, p.definitions[i]? = some d → q.definitions[i]? = some d
  enclosing : ∀ {f : FunctionId}, f.index < p.functions.size →
    q.enclosingFunction f = p.enclosingFunction f
  classes : Extended (ClassDecl.Grown p q inClass) (ClassDecl.Fresh p) p.classes q.classes
  functions : Extended (FunctionDecl.Grown p inMember) (FunctionDecl.Fresh p q) p.functions q.functions
  globals : ∀ g ∈ q.globals, g ∈ p.globals ∨ ∀ e ∈ g.init, e.knownIn p = true
  strings : q.strings = p.strings

theorem Source.grown (h : p.Source) (hg : p.Grown q inClass inMember) : q.Source where
  consistent := hg.consistent
  origin hc := by
    rcases hg.classes hc with ⟨cls0, hcls0, hgrown⟩ | ⟨_, _, _, _, _, rfl, _⟩
    · rw [hgrown.origin]
      exact h.origin hcls0
    · exact .inl rfl
  code hf e he := by
    rcases hg.functions hf with ⟨f0, hf0, hgrown⟩ | ⟨_, hfresh⟩
    · exact Expr.knownIn_mono hg.enlarges ((hgrown.code e he).elim (h.code hf0 e) id)
    · rw [hfresh.code] at he
      cases he
  fields hc field hfield e he := by
    rcases hg.classes hc with ⟨cls0, hcls0, hgrown⟩ | ⟨_, _, _, _, _, rfl, _⟩
    · refine Expr.knownIn_mono hg.enlarges ?_
      exact (hgrown.fields field hfield).elim (h.fields hcls0 field · e he) fun hnew => hnew.2 e he
    · cases hfield
  globals g hg' e he :=
    Expr.knownIn_mono hg.enlarges ((hg.globals g hg').elim (h.globals g · e he) fun hnew => hnew e he)
  strings := hg.strings.trans h.strings
  params hf := by
    rcases hg.functions hf with ⟨f0, hf0, hgrown⟩ | ⟨_, hfresh⟩
    · rcases hgrown.params with heq | hnodup
      · rw [heq]
        exact h.params hf0
      · exact hnodup
    · exact hfresh.params

section

variable (hg : p.Grown q inClass inMember)
include hg

theorem Grown.keepsKinds : p.KeepsKinds q := by
  intro f kind hf
  obtain ⟨decl, hdecl, hkind⟩ := hasKind_iff.mp hf
  obtain ⟨decl', hdecl'⟩ := exists_of_lt ((lt_of_get hdecl).trans_le hg.enlarges.functions)
  rcases hg.functions hdecl' with ⟨decl0, hdecl0, hgrown⟩ | ⟨hi, _⟩
  · cases hdecl.symm.trans hdecl0
    exact hasKind_iff.mpr ⟨decl', hdecl', hgrown.kind.trans hkind⟩
  · exact absurd hi (lt_of_get hdecl).ne

theorem Grown.declaredIn {d : DefnId} (hd : p.DeclaredIn d c) : q.DeclaredIn d c := by
  obtain ⟨defn, hdefn, hkind⟩ := Option.map_eq_some_iff.mp hd
  rw [DeclaredIn, hg.definitions hdefn]
  exact congrArg some hkind

theorem Shaped.grown (h : p.Shaped) : q.Shaped where
  cls {i cls} hi := by
    rcases hg.classes hi with ⟨cls0, hcls0, hgrown⟩ | ⟨rfl, _, _, st, _, rfl, hknown⟩
    · have hkept := (h.cls hcls0).of_keeps hg.keepsKinds hg.declaredIn
      refine ⟨?_, ?_, fun field hfield => ?_, fun m hm => ?_, fun m hm => ?_, ?_⟩
      · rw [hgrown.supertype]
        exact hkept.supertype
      · rw [hgrown.interfaces, hkept.interfaces]
      · exact (hgrown.fields field hfield).elim (hkept.fields field) And.left
      · exact (hgrown.methods m hm).elim (hkept.methods m) id
      · exact (hgrown.constructors m hm).elim (hkept.constructors m) id
      · rw [hgrown.initializer]
        exact hkept.initializer
    · refine ⟨fun sup hsup => ?_, rfl, forall_mem_nil _, forall_mem_nil _, forall_mem_nil _, nofun⟩
      exact of_decide_eq_true (hknown sup hsup (.cls sup.cls) (.head _))
  member {i decl} hi howner := by
    rcases hg.functions hi with ⟨decl0, hdecl0, hgrown⟩ | ⟨rfl, hfresh⟩
    · rw [hgrown.kind] at howner
      rw [hg.enclosing (f := ⟨i⟩) (lt_of_get hdecl0)]
      exact h.member hdecl0 howner
    · exact (hfresh.place.resolve_left howner).2
  root := h.root.trans_le hg.enlarges.classes

end

/-! ## Steps -/

section

variable (hp : p.Consistent)
include hp

/-- The step may also add a type parameter or a global. -/
theorem Grown.of_others {ts : Array TypeParameter} {gs : Array GlobalDecl} (hb : p.Builds fs cs ∅ q)
    (hts : p.typeParams.size ≤ ts.size)
    (hnew : ∀ {t}, inClass = some t ∨ inMember = some t →
      t.index = p.typeParams.size ∧ t.index < ts.size)
    (hone : inClass = none ∨ inMember = none)
    (hgs : ∀ g ∈ gs, g ∈ p.globals ∨ ∀ e ∈ g.init, e.knownIn p = true)
    (hclasses : Extended (ClassDecl.Grown p { q with typeParams := ts, globals := gs } inClass)
      (ClassDecl.Fresh p) p.classes q.classes)
    (hfunctions : Extended (FunctionDecl.Grown p inMember)
      (FunctionDecl.Fresh p { q with typeParams := ts, globals := gs }) p.functions q.functions) :
    p.Grown { q with typeParams := ts, globals := gs } inClass inMember where
  consistent := hb.consistent.congr rfl rfl rfl rfl
  enlarges := { hb.changes.enlarges with typeParams := hts }
  new := hnew
  one := hone
  definitions hd := hb.changes.defn_eq hd nofun
  enclosing hf := by
    rw [← hb.changes.enclosingFunction hp hf]
    exact enclosingFunction_congr rfl rfl
  classes := hclasses
  functions := hfunctions
  globals := hgs
  strings := congrArg (·.2.2.1) hb.changes.others

theorem Grown.of_builds (hb : p.Builds fs cs ∅ q)
    (hclasses : Extended (ClassDecl.Grown p q none) (ClassDecl.Fresh p) p.classes q.classes)
    (hfunctions : Extended (FunctionDecl.Grown p none) (FunctionDecl.Fresh p q)
      p.functions q.functions) : p.Grown q none none := by
  have hglobals : ∀ g ∈ q.globals, g ∈ p.globals ∨ ∀ e ∈ g.init, e.knownIn p = true := by
    rw [show q.globals = p.globals from congrArg (·.2.1) hb.changes.others]
    exact fun _ => .inl
  exact .of_others hp hb hb.changes.enlarges.typeParams (by simp) (.inl rfl) hglobals hclasses hfunctions

theorem grown_scope {parent : Option ScopeId} {kind : ScopeKind}
    (hparent : ∀ t, parent = some t → t.index < p.scopes.size) (hkind : p.knowsKind kind = true) :
    p.Grown { p with scopes := p.scopes.push ⟨⟨p.scopes.size⟩, parent, kind, .empty⟩ } none none := by
  refine .of_builds hp (builds_scope hp (hparent _) (fun {c} hc => ?_) fun {f} hf => ?_)
    (.refl fun _ _ => {}) (.refl fun _ _ => {})
  · rw [hc] at hkind
    exact of_decide_eq_true hkind
  · rw [hf] at hkind
    exact of_decide_eq_true hkind

theorem grown_define {new : Definition} (hid : new.id = ⟨p.definitions.size⟩)
    (hscope : new.scope.index < p.scopes.size)
    (hcls : ∀ {c}, new.kind = .field c → c.index < p.classes.size) :
    p.Grown (define p new) none none :=
  .of_builds hp (builds_definition hp new hid hscope hcls) (.refl fun _ _ => {}) (.refl fun _ _ => {})

theorem grown_class (hsup : ∀ st ∈ supertype, ∀ m ∈ st.mentions, m.inRange p = true)
    (h : (pushClass name supertype .declared).Gives p c q) : p.Grown q none none := by
  obtain ⟨scope, hadded⟩ := (ensures_pushClass hp).of_gives h
  refine .of_builds hp hadded.builds ?_ ?_
  · rw [hadded.classes]
    exact .push (fun _ _ => {}) ⟨_, name, supertype, scope, rfl, hsup⟩
  · rw [hadded.functions]
    exact .refl fun _ _ => {}

theorem grown_function {home : ScopeId} {ts : List TypeParamId} (hhome : home.index < p.scopes.size)
    (hdeclares : p.Declares p.functions.size home) : p.Grown { p with
      scopes := p.scopes.push ⟨⟨p.scopes.size⟩, some home, .function ⟨p.functions.size⟩, .empty⟩
      functions := p.functions.push { newFunction ⟨p.functions.size⟩ name .global ⟨p.scopes.size⟩ ty []
        with typeParams := ts } } none none :=
  .of_builds hp (builds_newFunction hp { newFunction ⟨p.functions.size⟩ name .global ⟨p.scopes.size⟩ ty []
      with typeParams := ts } rfl rfl hhome hdeclares nofun rfl rfl rfl (fun h => h)
      (fun h hi => absurd hi (not_new rfl h)) (forall_mem_nil _) (fun h => absurd rfl h) rfl)
    (.refl fun _ _ => {}) (.push (fun _ _ => {}) ⟨.inl rfl, nodup_nil, rfl⟩)

theorem grown_member {new : FunctionDecl} {list : ClassDecl → ClassDecl}
    {cls : ClassDecl} (hcls : p.classes[c.index]? = some cls)
    (hadded : p.MemberAdded c list new q) (hhome : q.declaringScope ⟨p.functions.size⟩ = .ok (some cls.scope))
    (hnew : new.typeParams = [] ∧ new.exprs = [])
    (hlist : q.HasKind ⟨p.functions.size⟩ new.kind → ∀ cls, ClassDecl.Grown p q none c.index cls (list cls)) :
    p.Grown q none none := by
  refine .of_builds hp hadded.builds ?_ ?_
  · rw [hadded.classes]
    refine .modify (fun _ _ => {}) fun _ => hlist ?_ _
    rw [← hadded.fresh]
    exact hasKind_iff.mpr ⟨new, hadded.entry, rfl⟩
  · rw [hadded.functions]
    refine .push (fun _ _ => {}) ⟨.inr ⟨hnew.1, ?_⟩, ?_, hnew.2⟩
    · obtain ⟨cls', hcls', _, _, hscope, _⟩ := hadded.builds.changes.classes hcls
      rw [← hscope] at hhome
      exact enclosingFunction_of_class hadded.builds.consistent hcls' hhome
    · rw [hadded.params]
      exact pairwise_singleton _ _

theorem grown_code {change : FunctionDecl → FunctionDecl} (hf : f.index < p.functions.size)
    (hkeeps : ∀ decl, FunctionDecl.SameButCode decl (change decl))
    (hgrown : ∀ decl, FunctionDecl.Grown p none f.index decl (change decl)) :
    p.Grown { p with functions := p.functions.modify f.index change } none none := by
  obtain ⟨decl, hdecl⟩ := exists_of_lt hf
  exact .of_builds hp (builds_code hp hdecl hkeeps) (.refl fun _ _ => {})
    (.modify (fun _ _ => {}) fun _ => hgrown _)

end

end Program

theorem Pass.gives_discard {α : Type} {m : Pass α} {v : Unit} {q : Program}
    (h : (discard m).Gives p v q) : ∃ a, m.Gives p a q := by
  change EStateM.map _ m p = _ at h
  unfold EStateM.map at h
  split at h
  · cases h
    exact ⟨_, ‹_›⟩
  · cases h

theorem Construction.grown {q : Program} (hp : p.Source) (hroot : 0 < p.classes.size)
    {c : Construction} (hknown : c.known p = true) (h : c.perform.Gives p () q) :
    ∃ inClass inMember, p.Grown q inClass inMember := by
  have hc := hp.consistent
  cases c <;> simp only [Construction.known, Bool.and_eq_true, decide_eq_true_eq,
    Option.all_eq_true, all_eq_true] at hknown
  case body f body =>
    obtain ⟨_, rfl⟩ := gives_modifyFunction.mp h
    refine ⟨none, none, grown_code hc hknown.1 (fun _ => {}) fun decl => { code := fun e he => ?_ }⟩
    rcases mem_append.mp he with he | he
    · cases Option.mem_toList.mp he
      exact .inr hknown.2
    · exact .inl (mem_append_right _ he)
  case chain f chain =>
    obtain ⟨_, rfl⟩ := gives_modifyFunction.mp h
    refine ⟨none, none, grown_code hc hknown.1.1 (fun _ => {}) fun decl => { code := fun e he => ?_ }⟩
    rcases mem_append.mp he with he | he
    · exact .inl (mem_append_left _ he)
    · exact .inr (hknown.1.2 e he)
  all_goals replace h := gives_discard h
  all_goals obtain ⟨a, h⟩ := h
  case scope =>
    cases h
    exact ⟨none, none, grown_scope hc hknown.1 hknown.2⟩
  case blockScope =>
    cases h
    exact ⟨none, none, grown_scope hc (fun _ ht => by cases ht; exact hknown) rfl⟩
  case definition =>
    obtain ⟨hs, _, rfl⟩ := gives_addDefinition.mp h
    refine ⟨none, none, grown_define hc rfl hs fun hkind => ?_⟩
    cases hkind
    exact of_decide_eq_true hknown.2
  case blockLocal =>
    obtain ⟨hs, _, rfl⟩ := gives_addDefinition.mp h
    exact ⟨none, none, grown_define hc rfl hs nofun⟩
  case localVar =>
    obtain ⟨_, _, h⟩ := gives_ask_bind.mp h
    obtain ⟨hs, _, rfl⟩ := gives_addDefinition.mp h
    exact ⟨none, none, grown_define hc rfl hs nofun⟩
  case global name ty isMutable init =>
    obtain ⟨_, _, h1, h⟩ := gives_bind.mp (gives_get_bind.mp h)
    obtain ⟨hs, _, rfl⟩ := gives_addDefinition.mp h1
    obtain ⟨_, _, h2, h⟩ := gives_bind.mp h
    obtain rfl := gives_modify.mp h2
    obtain ⟨_, rfl⟩ := gives_pure.mp h
    refine ⟨none, none, .of_others hc (builds_definition hc ⟨⟨p.definitions.size⟩, name,
      .global p.globals.size, ty, isMutable, globalScope⟩ rfl hs nofun) le_rfl (by simp) (.inl rfl)
      (fun g hg => (Array.mem_push.mp hg).imp id fun hg => ?_) (.refl fun _ _ => {}) (.refl fun _ _ => {})⟩
    rw [hg]
    exact hknown
  case typeParam =>
    cases h
    refine ⟨none, none, .of_others hc (.refl hc) ?_ (by simp) (.inl rfl) (fun _ => .inl)
      (.refl fun _ _ => {}) (.refl fun _ _ => {})⟩
    simp
  case cls =>
    refine ⟨none, none, grown_class hc (fun st hst m hm => ?_) h⟩
    cases hst
    cases mem_singleton.mp hm
    exact decide_eq_true hroot
  case subclass =>
    refine ⟨none, none, grown_class hc (fun st hst => ?_) h⟩
    cases hst
    exact hknown
  case classTypeParam c name =>
    obtain ⟨_, _, h1, h⟩ := gives_bind.mp h
    cases h1
    obtain ⟨_, _, h2, h⟩ := gives_bind.mp h
    obtain ⟨_, rfl⟩ := gives_modifyClass.mp h2
    obtain ⟨_, rfl⟩ := gives_pure.mp h
    have hb : p.Builds ∅ {c} ∅ { p with classes := p.classes.modify c.index fun cls =>
        { cls with typeParams := cls.typeParams ++ [⟨p.typeParams.size⟩] } } :=
      builds_class hc fun _ => {}
    refine ⟨some ⟨p.typeParams.size⟩, none, .of_others hc hb ?_ ?_ (.inr rfl)
      (fun _ => .inl) (.modify (fun _ _ => {}) fun _ => { typeParams := .inr ⟨_, rfl, rfl⟩ })
      (.refl fun _ _ => {})⟩
    · simp
    · intro t ht
      obtain rfl : ⟨p.typeParams.size⟩ = t := by simpa using ht
      exact ⟨rfl, by simp⟩
  case functionTypeParam f name =>
    obtain ⟨decl, hdecl⟩ := exists_of_lt hknown
    obtain ⟨_, _, h1, h⟩ := gives_bind.mp h
    cases h1
    obtain ⟨_, _, h2, h⟩ := gives_bind.mp h
    obtain ⟨_, rfl⟩ := gives_modifyFunction.mp h2
    obtain ⟨_, rfl⟩ := gives_pure.mp h
    have hb : p.Builds {f} ∅ ∅ { p with functions := p.functions.modify f.index fun decl =>
        { decl with typeParams := decl.typeParams ++ [⟨p.typeParams.size⟩] } } :=
      builds_code hc hdecl fun _ => {}
    refine ⟨none, some ⟨p.typeParams.size⟩, .of_others hc hb ?_ ?_ (.inl rfl)
      (fun _ => .inl) (.refl fun _ _ => {})
      (.modify (fun _ _ => {}) fun _ => { typeParams := .inr ⟨_, rfl, rfl⟩ })⟩
    · simp
    · intro t ht
      obtain rfl : ⟨p.typeParams.size⟩ = t := by simpa using ht
      exact ⟨rfl, by simp⟩
  case field c name ty isMutable init =>
    obtain ⟨cls, hcls⟩ := exists_of_lt hknown.1
    have hadded := (ensures_addField hc hcls).of_gives h
    refine ⟨none, none, .of_builds hc hadded.builds ?_ ?_⟩
    · rw [hadded.classes]
      refine .modify (fun _ _ => {}) fun _ => { fields := fun field hfield => ?_ }
      refine (mem_append.mp hfield).imp id fun hfield => ?_
      cases mem_singleton.mp hfield
      refine ⟨?_, hknown.2⟩
      rw [DeclaredIn, hadded.entry]
      rfl
    · rw [hadded.functions]
      exact .refl fun _ _ => {}
  case param f name ty isMutable =>
    obtain ⟨decl, hdecl⟩ := exists_of_lt hknown
    have hadded := (ensures_addParam hc hdecl).of_gives h
    refine ⟨none, none, .of_builds hc hadded.builds ?_ ?_⟩
    · rw [hadded.classes]
      exact .refl fun _ _ => {}
    · rw [hadded.functions]
      refine .modify (fun _ _ => {}) fun {decl} hdecl => { params := .inr ?_ }
      -- the new parameter is a new definition
      refine nodup_append.mpr ⟨hp.params hdecl, pairwise_singleton _ _, fun d hd _ hnew heq => ?_⟩
      cases mem_singleton.mp hnew
      obtain ⟨defn, hdefn, _⟩ := (hc.function hdecl).params d hd
      have hlt := lt_of_get hdefn
      rw [heq, hadded.fresh] at hlt
      exact hlt.false.elim
  case function =>
    obtain ⟨_, rfl⟩ := gives_pushFunction_global.mp h
    obtain ⟨_, hglobal, _⟩ := hc.root
    exact ⟨none, none, grown_function hc (lt_of_get hglobal) .top⟩
  case nestedFunction f _ _ =>
    obtain ⟨decl, hdecl, h⟩ := gives_ask_bind.mp h
    have hdecl := entryAt_eq_ok.mp hdecl
    obtain ⟨ts, _, h⟩ := gives_ask_bind.mp h
    obtain ⟨_, _, h1, h⟩ := gives_bind.mp h
    obtain ⟨rfl, rfl⟩ := gives_pushFunction_global.mp h1
    obtain ⟨_, _, h2, h⟩ := gives_bind.mp h
    obtain ⟨_, rfl⟩ := gives_modifyFunction.mp h2
    obtain ⟨_, rfl⟩ := gives_pure.mp h
    obtain ⟨s, _, hs, _⟩ := (hc.function hdecl).scope
    dsimp only
    rw [modify_push]
    exact ⟨none, none, grown_function hc (lt_of_get hs) (.nested hdecl hknown)⟩
  case method c name ty =>
    obtain ⟨cls, hcls⟩ := exists_of_lt hknown
    obtain ⟨scope, hadded⟩ := (ensures_addMethod hc hcls).of_gives h
    obtain ⟨rfl, rfl⟩ := (gives_addMethod hcls).mp h
    refine ⟨none, none, grown_member hc hcls hadded (declaringScope_of_push rfl rfl rfl rfl) ⟨rfl, rfl⟩
      fun hkind _ => { methods := fun m hm => (mem_append.mp hm).imp id fun hm => ?_ }⟩
    cases mem_singleton.mp hm
    exact hkind
  case constructor c =>
    obtain ⟨cls, hcls⟩ := exists_of_lt hknown
    obtain ⟨scope, hadded⟩ := (ensures_addConstructor hc hcls).of_gives h
    obtain ⟨rfl, rfl⟩ := (gives_addConstructor hcls).mp h
    refine ⟨none, none, grown_member hc hcls hadded (declaringScope_of_push rfl rfl rfl rfl) ⟨rfl, rfl⟩
      fun hkind _ => { constructors := fun m hm => (mem_append.mp hm).imp id fun hm => ?_ }⟩
    cases mem_singleton.mp hm
    exact hkind

/-! ## Construction -/

namespace Program

/-- Whether the tables fit together can be found out, if no function lies in another one and all
definitions are parameters. -/
theorem Consistent.of_checks (hroot : p.scopes[0]?.map Scope.kind = some .global)
    (hscopes : ∀ i < p.scopes.size, ∀ s ∈ p.scopes[i]?, s.id = ⟨i⟩ ∧ (∀ t ∈ s.parent, t.index < i) ∧
      p.knowsKind s.kind = true)
    (hdefns : ∀ i < p.definitions.size, ∀ d ∈ p.definitions[i]?, d.id = ⟨i⟩ ∧
      d.scope.index < p.scopes.size ∧ d.kind = .parameter)
    (hclasses : ∀ i < p.classes.size, ∀ c ∈ p.classes[i]?, c.id = ⟨i⟩ ∧
      p.scopes[c.scope.index]?.map Scope.kind = some (.ofClass ⟨i⟩))
    (hfunctions : ∀ i < p.functions.size, ∀ f ∈ p.functions[i]?, f.id = ⟨i⟩ ∧
      (∀ c ∈ f.kind.owner?, c.index < p.classes.size) ∧
      p.scopes[f.scope.index]?.map Scope.kind = some (.function ⟨i⟩) ∧
      (∃ home, p.scopes[f.scope.index]?.bind Scope.parent = some home ∧
        (home = globalScope ∨ ∃ cls ∈ p.classes.toList, cls.scope = home)) ∧
      (∀ d ∈ f.params, p.definitions[d.index]?.map Definition.scope = some f.scope) ∧
      (f.kind.owner? ≠ none → f.params ≠ [])) : p.Consistent where
  root := Option.map_eq_some_iff.mp hroot
  scope {i s} hs := by
    obtain ⟨hid, hparent, hkind⟩ := hscopes i (lt_of_get hs) s hs
    refine ⟨hid, fun ht => hparent _ ht, fun {c} hc => ?_, fun {f} hf => ?_⟩
    · rw [hc] at hkind
      exact of_decide_eq_true hkind
    · rw [hf] at hkind
      exact of_decide_eq_true hkind
  defn {i d} hd := by
    obtain ⟨hid, hscope, hkind⟩ := hdefns i (lt_of_get hd) d hd
    exact ⟨hid, hscope, fun hc => by cases hkind.symm.trans hc⟩
  cls {i c} hc := by
    obtain ⟨hid, hscope⟩ := hclasses i (lt_of_get hc) c hc
    exact ⟨hid, Option.map_eq_some_iff.mp hscope⟩
  function {i f} hf := by
    obtain ⟨hid, howner, hkind, ⟨home, hhome, hdeclares⟩, hparams, hreceiver⟩ :=
      hfunctions i (lt_of_get hf) f hf
    obtain ⟨s, hs, hkind⟩ := Option.map_eq_some_iff.mp hkind
    rw [hs] at hhome
    refine ⟨hid, fun hc => howner _ hc, ⟨s, home, hs, hkind, hhome, ?_⟩, fun d hd => ?_, hreceiver⟩
    · rcases hdeclares with rfl | ⟨cls, hcls, rfl⟩
      · exact .top
      · obtain ⟨c, hc⟩ := Array.mem_iff_getElem?.mp (Array.mem_toList_iff.mp hcls)
        exact .member hc
    · obtain ⟨defn, hdefn, hscope⟩ := Option.map_eq_some_iff.mp (hparams d hd)
      exact ⟨defn, hdefn, (hdefns _ (lt_of_get hdefn) defn hdefn).2.2, hscope⟩

theorem source_initial : Program.initial.Source where
  consistent := .of_checks (by decide +kernel) (by decide +kernel) (by decide +kernel)
    (by decide +kernel) (by decide +kernel)
  origin {i c} hc := (by decide +kernel : ∀ i < Program.initial.classes.size,
    ∀ c ∈ Program.initial.classes[i]?, c.origin = .declared ∨ c.origin = .builtin) i (lt_of_get hc) c hc
  code {i f} hf := (by decide +kernel : ∀ i < Program.initial.functions.size,
    ∀ f ∈ Program.initial.functions[i]?, ∀ e ∈ f.exprs, e.knownIn .initial = true) i (lt_of_get hf) f hf
  fields {i c} hc := (by decide +kernel : ∀ i < Program.initial.classes.size,
    ∀ c ∈ Program.initial.classes[i]?, ∀ field ∈ c.fields, ∀ e ∈ field.init,
      e.knownIn .initial = true) i (lt_of_get hc) c hc
  globals := by decide +kernel
  strings := by decide +kernel
  params {i f} hf := (by decide +kernel : ∀ i < Program.initial.functions.size,
    ∀ f ∈ Program.initial.functions[i]?, f.params.Nodup) i (lt_of_get hf) f hf

theorem shaped_initial : Program.initial.Shaped :=
  .of_checks (by decide +kernel) (by decide +kernel) (by decide +kernel)

end Program

theorem Constructed.written (h : Constructed p) : p.Source ∧ p.Shaped := by
  induction h with
  | initial => exact ⟨Program.source_initial, Program.shaped_initial⟩
  | step _ hknown hgives ih =>
    obtain ⟨_, _, hgrown⟩ := Construction.grown ih.1 ih.2.root hknown hgives
    exact ⟨ih.1.grown hgrown, ih.2.grown hgrown⟩

theorem Constructed.source (h : Constructed p) : p.Source := h.written.1

/-- Members of a program that is built stand in their classes. -/
theorem Constructed.shaped (h : Constructed p) : p.Shaped := h.written.2

def Construction.build? : List Construction → Program → Option Program
  | [], p => some p
  | c :: rest, p =>
    if c.known p && c.perform.succeeds p then build? rest (c.perform.left p) else none

theorem Constructed.of_build? (steps : List Construction) : ∀ {p q : Program}, Constructed p →
    Construction.build? steps p = some q → Constructed q := by
  induction steps with
  | nil => intro p q hp h; cases h; exact hp
  | cons c rest ih =>
    intro p q hp h
    unfold Construction.build? at h
    split at h
    · rename_i hstep
      obtain ⟨hknown, hsucceeds⟩ := Bool.and_eq_true_iff.mp hstep
      exact ih (.step hp hknown (gives_left hsucceeds)) h
    · cases h

def Program.built (steps : List Construction) : Program :=
  (Construction.build? steps .initial).getD .initial

theorem Constructed.built {steps : List Construction}
    (h : (Construction.build? steps .initial).isSome = true) : Constructed (.built steps) := by
  obtain ⟨p, hp⟩ := Option.isSome_iff_exists.mp h
  unfold Program.built
  rw [hp]
  exact .of_build? steps .initial hp

end StackBackend
