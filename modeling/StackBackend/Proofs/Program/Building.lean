import StackBackend.Program.Build
import StackBackend.Proofs.Program.Changes
import StackBackend.Proofs.Program.Ensures

/-! What the steps that build programs ensure. On tables that fit together, and with
references that are in range, every step succeeds, leaves tables that fit together and
changes nothing but what it is about. -/

namespace StackBackend

open Array (getElem?_modify size_push size_modify getElem?_push_size getElem?_push ext_getElem?)

variable {c : ClassId} {f : FunctionId} {i : Nat} {table : Table}
  {change : FunctionDecl → FunctionDecl} {parent : Option ScopeId} {kind : ScopeKind}
  {home : ScopeId} {new : FunctionDecl} {init : Option Expr} {list : ClassDecl → ClassDecl}
  {v : Unit} {supertype : Option ClassTy} {origin : ClassOrigin} {R : Unit → Program → Prop}
  {this : Ty}
variable {α : Type} {a b : α} {xs : Array α}

structure FunctionDecl.SamePlace (old new : FunctionDecl) : Prop where
  id : new.id = old.id := by rfl
  name : new.name = old.name := by rfl
  scope : new.scope = old.scope := by rfl

/-- A function that may have other code. -/
structure FunctionDecl.SameButCode (old new : FunctionDecl) : Prop
    extends old.SamePlace new where
  kind : new.kind = old.kind := by rfl
  params : new.params = old.params := by rfl

structure ClassDecl.SamePlace (old new : ClassDecl) : Prop where
  id : new.id = old.id := by rfl
  name : new.name = old.name := by rfl
  scope : new.scope = old.scope := by rfl
  origin : new.origin = old.origin := by rfl

namespace Program

variable {p q r : Program} {fs fs' : Set FunctionId} {cs cs' : Set ClassId} {ds ds' : Set DefnId}

/-- A change to tables that fit together afterwards. -/
structure Builds (p : Program) (fs : Set FunctionId) (cs : Set ClassId) (ds : Set DefnId)
    (q : Program) : Prop where
  consistent : q.Consistent
  changes : p.Changes fs cs ds q

namespace Builds

theorem refl (hp : p.Consistent) : p.Builds ∅ ∅ ∅ p := ⟨hp, .refl p⟩

theorem of_changes (hp : p.Consistent) (h : p.Changes fs cs ds q) (hnew : p.NewOk fs ds q) :
    p.Builds fs cs ds q :=
  ⟨.of_changes h hp hnew, h⟩

theorem mono (h : p.Builds fs cs ds q) (hf : fs ⊆ fs') (hc : cs ⊆ cs') (hd : ds ⊆ ds') :
    p.Builds fs' cs' ds' q :=
  ⟨h.consistent, h.changes.mono hf hc hd⟩

theorem weaken (h : p.Builds ∅ ∅ ∅ q) : p.Builds fs cs ds q :=
  h.mono (Set.empty_subset _) (Set.empty_subset _) (Set.empty_subset _)

theorem step (h : p.Builds fs cs ds q) (h' : q.Builds fs' cs' ds' r)
    (hf : ∀ f ∈ fs', f.index < p.functions.size → f ∈ fs)
    (hc : ∀ c ∈ cs', c.index < p.classes.size → c ∈ cs)
    (hd : ∀ d ∈ ds', d.index < p.definitions.size → d ∈ ds) : p.Builds fs cs ds r :=
  ⟨h'.consistent, h.changes.trans h'.changes hf hc hd⟩

theorem step_empty (h : p.Builds fs cs ds q) (h' : q.Builds ∅ ∅ ∅ r) : p.Builds fs cs ds r :=
  h.step h' nofun
    nofun nofun

theorem step_class (h : p.Builds fs cs ds q) (h' : q.Builds ∅ {c} ∅ r)
    (hc : c.index < p.classes.size → c ∈ cs) : p.Builds fs cs ds r :=
  h.step h' nofun
    (fun _ hm hlt => by cases hm; exact hc hlt) nofun

theorem step_function (h : p.Builds fs cs ds q) (h' : q.Builds {f} ∅ ∅ r)
    (hf : f.index < p.functions.size → f ∈ fs) : p.Builds fs cs ds r :=
  h.step h' (fun _ hm hlt => by cases hm; exact hf hlt)
    nofun nofun

end Builds

/-! ## Single entries -/

theorem modify_push {f : α → α} :
    (xs.push a).modify xs.size f = xs.push (f a) := by
  apply ext_getElem?
  intro i
  rw [getElem?_modify, getElem?_push, getElem?_push]
  by_cases hi : i = xs.size
  · simp [hi]
  · simp [hi, Ne.symm hi]

theorem modify_const {f : α → α}
    (h : xs[i]? = some a) : xs.modify i f = xs.modify i fun _ => f a := by
  apply ext_getElem?
  intro j
  rw [getElem?_modify, getElem?_modify]
  by_cases hj : i = j
  · rw [if_pos hj, if_pos hj, ← hj, h]
    rfl
  · rw [if_neg hj, if_neg hj]

theorem modify_same (h : xs[i]? = some a) :
    (xs.modify i fun _ => a) = xs := by
  apply ext_getElem?
  intro j
  rw [getElem?_modify]
  by_cases hj : i = j
  · rw [if_pos hj, ← hj, h]
    rfl
  · rw [if_neg hj]

theorem getElem?_push_lt (h : xs[i]? = some b) :
    (xs.push a)[i]? = some b := by
  rw [getElem?_push, if_neg (Nat.ne_of_lt (lt_of_get h)), h]

theorem getElem?_push_new
    (h : (xs.push a)[i]? = some b) (hi : xs.size ≤ i) : i = xs.size ∧ b = a := by
  have hlt := lt_of_get h
  rw [size_push] at hlt
  have heq : i = xs.size := by omega
  rw [getElem?_push, if_pos heq] at h
  exact ⟨heq, (Option.some.inj h).symm⟩

theorem keepsScopes_rename (s : ScopeId) (rename : NameTable → NameTable) {p q : Program}
    (hq : q.scopes = p.scopes.modify s.index fun scope => { scope with names := rename scope.names }) :
    p.KeepsScopes q where
  kept {i scope} hi := by
    rw [hq, getElem?_modify]
    by_cases hs : s.index = i
    · exact ⟨rename scope.names, by rw [if_pos hs, hi]; rfl⟩
    · exact ⟨scope.names, by rw [if_neg hs, hi]⟩

theorem changes_function
    (hkeeps : ∀ decl, FunctionDecl.SamePlace decl (change decl)) :
    p.Changes {f} ∅ ∅ { p with functions := p.functions.modify f.index change } where
  functions {i decl} hi := by
    rw [getElem?_modify]
    by_cases hf : f.index = i
    · obtain ⟨hid, hname, hscope⟩ := hkeeps decl
      exact ⟨change decl, by rw [if_pos hf, hi]; rfl, hid, hname, hscope,
        fun hn => absurd (Ref.ext_index hf.symm) hn⟩
    · exact ⟨decl, by rw [if_neg hf, hi], rfl, rfl, rfl, fun _ => rfl⟩

theorem changes_class {change : ClassDecl → ClassDecl}
    (hkeeps : ∀ cls, ClassDecl.SamePlace cls (change cls)) :
    p.Changes ∅ {c} ∅ { p with classes := p.classes.modify c.index change } where
  classes {i cls} hi := by
    rw [getElem?_modify]
    by_cases hc : c.index = i
    · obtain ⟨hid, hname, hscope, horigin⟩ := hkeeps cls
      exact ⟨change cls, by rw [if_pos hc, hi]; rfl, hid, hname, hscope, horigin,
        fun hn => absurd (Ref.ext_index hc.symm) hn⟩
    · exact ⟨cls, by rw [if_neg hc, hi], rfl, rfl, rfl, rfl, fun _ => rfl⟩

section

variable (hp : p.Consistent)
include hp

theorem builds_class {change : ClassDecl → ClassDecl}
    (hkeeps : ∀ cls, ClassDecl.SamePlace cls (change cls)) :
    p.Builds ∅ {c} ∅ { p with classes := p.classes.modify c.index change } :=
  .of_changes hp (changes_class hkeeps) {}

theorem builds_function {decl : FunctionDecl} (hf : p.functions[f.index]? = some decl)
    (hkeeps : ∀ decl, FunctionDecl.SamePlace decl (change decl))
    (howner : ∀ {c}, (change decl).kind.owner? = some c → c.index < p.classes.size)
    (hparams : ∀ d ∈ (change decl).params, p.IsParameter d decl.scope)
    (hreceiver : (change decl).kind.owner? ≠ none → (change decl).params ≠ []) :
    p.Builds {f} ∅ ∅ { p with functions := p.functions.modify f.index change } := by
  have hchanges := changes_function (p := p) (f := f) hkeeps
  refine .of_changes hp hchanges { function := fun {i g} hg hi => ?_ }
  rcases hi with hi | hm
  · exact absurd hi (not_new size_modify hg)
  · obtain rfl : (⟨i⟩ : FunctionId) = f := hm
    rw [getElem?_modify, if_pos rfl, hf] at hg
    cases hg
    obtain ⟨hid, _, hscope⟩ := hkeeps decl
    refine (hp.function hf).mono hchanges hid hscope howner (fun d hd => ?_) hreceiver
    rw [hscope]
    exact (hparams d hd).mono hchanges nofun

theorem builds_scope (hparent : ∀ {t}, parent = some t → t.index < p.scopes.size)
    (hcls : ∀ {c}, kind = .ofClass c → c.index < p.classes.size)
    (hfunction : ∀ {f}, kind = .function f → f.index < p.functions.size) :
    p.Builds ∅ ∅ ∅ { p with
      scopes := p.scopes.push ⟨⟨p.scopes.size⟩, parent, kind, .empty⟩ } := by
  refine .of_changes hp { scopes := ⟨fun {_ s} h => ⟨s.names, getElem?_push_lt h⟩⟩ }
    { scope := fun {i s} hs hi => ?_ }
  obtain ⟨rfl, rfl⟩ := getElem?_push_new hs hi
  exact ⟨rfl, hparent, hcls, hfunction⟩

theorem builds_definition (new : Definition) (hid : new.id = ⟨p.definitions.size⟩)
    (hscope : new.scope.index < p.scopes.size)
    (hcls : ∀ {c}, new.kind = .field c → c.index < p.classes.size) :
    p.Builds ∅ ∅ ∅ { p with
      definitions := p.definitions.push new
      scopes := p.scopes.modify new.scope.index fun s =>
        { s with names := s.names.insert new.name new.id } } := by
  refine .of_changes hp
    { scopes := keepsScopes_rename new.scope (·.insert new.name new.id) rfl
      defns := fun h => ⟨_, getElem?_push_lt h, rfl, rfl, rfl, rfl, fun _ => rfl⟩ }
    { defn := fun {i d} hd hi => ?_ }
  obtain ⟨rfl, rfl⟩ := getElem?_push_new hd (hi.resolve_right nofun)
  exact ⟨hid, by rw [size_modify]; exact hscope, hcls⟩

theorem builds_moved {d : DefnId} {defn : Definition} (hd : p.definitions[d.index]? = some defn)
    (hkind : defn.kind ≠ .parameter) (hc : c.index < p.classes.size) {s : ScopeId}
    (hs : s.index < p.scopes.size) (rename : NameTable → NameTable) :
    p.Builds ∅ ∅ {d} { p with
      definitions := p.definitions.modify d.index fun defn =>
        { defn with kind := .field c, scope := s }
      scopes := p.scopes.modify s.index fun scope =>
        { scope with names := rename scope.names } } := by
  refine .of_changes hp
    { scopes := keepsScopes_rename s rename rfl
      defns := fun {i d'} h => by
        rw [getElem?_modify, h]
        by_cases hi : d.index = i
        · exact ⟨{ d' with kind := .field c, scope := s }, by rw [if_pos hi]; rfl, rfl, rfl, rfl,
            rfl, fun hn => absurd (Ref.ext_index hi.symm) hn⟩
        · exact ⟨d', by rw [if_neg hi], rfl, rfl, rfl, rfl, fun _ => rfl⟩ }
    { defn := fun {i d'} hd' hi => ?_
      moved := fun {d' t} hm hparam => ?_ }
  · rcases hi with hi | hm
    · exact absurd hi (not_new size_modify hd')
    · obtain rfl : (⟨i⟩ : DefnId) = d := hm
      rw [getElem?_modify, if_pos rfl, hd] at hd'
      cases hd'
      refine ⟨(hp.defn hd).id, by rw [size_modify]; exact hs, fun hkind' => ?_⟩
      cases hkind'
      exact hc
  · obtain rfl : d' = d := hm
    obtain ⟨defn', hdefn', hparam, _⟩ := hparam
    cases hd.symm.trans hdefn'
    exact hkind hparam

theorem builds_newClass (new : ClassDecl) (hid : new.id = ⟨p.classes.size⟩)
    (hscope : new.scope = ⟨p.scopes.size⟩) :
    p.Builds ∅ ∅ ∅ { p with
      scopes := p.scopes.push ⟨new.scope, some globalScope, .ofClass new.id, .empty⟩
      classes := p.classes.push new } := by
  refine .of_changes hp
    { scopes := ⟨fun {_ s} h => ⟨s.names, getElem?_push_lt h⟩⟩
      classes := fun h => ⟨_, getElem?_push_lt h, rfl, rfl, rfl, rfl, fun _ => rfl⟩ }
    { scope := fun {i s} hs hi => ?_
      cls := fun {i c} hc hi => ?_ }
  · obtain ⟨rfl, rfl⟩ := getElem?_push_new hs hi
    obtain ⟨_, hroot, _⟩ := hp.root
    refine ⟨hscope, fun ht => ?_, fun hc => ?_, nofun⟩
    · cases ht
      exact lt_of_get hroot
    · cases hc
      rw [hid, size_push]
      exact Nat.lt_succ_self _
  · obtain ⟨rfl, rfl⟩ := getElem?_push_new hc hi
    refine ⟨hid, ⟨c.scope, some globalScope, .ofClass c.id, .empty⟩, ?_, ?_⟩
    · rw [hscope]
      exact getElem?_push_size
    · rw [hid]

theorem builds_newFunction {q : Program} (new : FunctionDecl) {names : NameTable}
    (hid : new.id = ⟨p.functions.size⟩) (hscope : new.scope = ⟨p.scopes.size⟩)
    (hhome : home.index < p.scopes.size) (hdeclares : p.Declares p.functions.size home)
    (howner : ∀ {c}, new.kind.owner? = some c → c.index < p.classes.size)
    (hscopes : q.scopes = p.scopes.push ⟨new.scope, some home, .function new.id, names⟩)
    (hfunctions : q.functions = p.functions.push new) (hclasses : q.classes = p.classes)
    (hdefns : ∀ {i : Nat} {d : Definition}, p.definitions[i]? = some d →
      q.definitions[i]? = some d)
    (hnew : ∀ {i : Nat} {d : Definition}, q.definitions[i]? = some d → p.definitions.size ≤ i →
      d.id = ⟨i⟩ ∧ d.kind = .parameter ∧ d.scope = new.scope)
    (hparams : ∀ d ∈ new.params, q.IsParameter d new.scope)
    (hreceiver : new.kind.owner? ≠ none → new.params ≠ []) (hothers : q.others = p.others) :
    p.Builds ∅ ∅ ∅ q := by
  have hchanges : p.Changes ∅ ∅ ∅ q :=
    { scopes := ⟨fun {_ s} h => ⟨s.names, by rw [hscopes]; exact getElem?_push_lt h⟩⟩
      functions := fun h =>
        ⟨_, by rw [hfunctions]; exact getElem?_push_lt h, rfl, rfl, rfl, fun _ => rfl⟩
      classes := fun h => ⟨_, by rw [hclasses]; exact h, rfl, rfl, rfl, rfl, fun _ => rfl⟩
      defns := fun h => ⟨_, hdefns h, rfl, rfl, rfl, rfl, fun _ => rfl⟩
      others := hothers }
  refine .of_changes hp hchanges
    { scope := fun {i s} hs hi => ?_
      defn := fun {i d} hd hi => ?_
      cls := fun hc hi => absurd hi (not_new (by rw [hclasses]) hc)
      function := fun {i f} hf hi => ?_ }
  · rw [hscopes] at hs
    obtain ⟨rfl, rfl⟩ := getElem?_push_new hs hi
    refine ⟨hscope, fun ht => ?_, nofun, fun hf => ?_⟩
    · cases ht
      exact hhome
    · cases hf
      rw [hid, hfunctions, size_push]
      exact Nat.lt_succ_self _
  · obtain ⟨hdid, hkind, hdscope⟩ := hnew hd (hi.resolve_right nofun)
    refine ⟨hdid, ?_, fun hc => ?_⟩
    · rw [hdscope, hscope, hscopes, size_push]
      exact Nat.lt_succ_self _
    · rw [hkind] at hc
      cases hc
  · rw [hfunctions] at hf
    obtain ⟨rfl, rfl⟩ := getElem?_push_new hf (hi.resolve_right nofun)
    refine ⟨hid, fun hc => by rw [hclasses]; exact howner hc,
      ⟨⟨f.scope, some home, .function f.id, names⟩, home, ?_, ?_, rfl, hdeclares.mono hchanges⟩,
      hparams, hreceiver⟩
    · rw [hscopes, hscope]
      exact getElem?_push_size
    · rw [hid]

end

/-! ## What steps leave behind -/

structure Defined (p : Program) (new : Definition) (q : Program) : Prop where
  builds : p.Builds ∅ ∅ ∅ q
  fresh : new.id = ⟨p.definitions.size⟩
  definitions : q.definitions = p.definitions.push new
  functions : q.functions = p.functions
  classes : q.classes = p.classes

structure ClassAdded (p : Program) (new : ClassDecl) (q : Program) : Prop where
  builds : p.Builds ∅ ∅ ∅ q
  fresh : new.id = ⟨p.classes.size⟩
  definitions : q.definitions = p.definitions
  functions : q.functions = p.functions
  classes : q.classes = p.classes.push new

structure FunctionAdded (p : Program) (new : FunctionDecl) (q : Program) : Prop where
  builds : p.Builds ∅ ∅ ∅ q
  fresh : new.id = ⟨p.functions.size⟩
  functions : q.functions = p.functions.push new
  classes : q.classes = p.classes

structure FieldAdded (p : Program) (c : ClassId) (init : Option Expr) (new : Definition)
    (q : Program) : Prop where
  builds : p.Builds ∅ {c} ∅ q
  fresh : new.id = ⟨p.definitions.size⟩
  definitions : q.definitions = p.definitions.push new
  functions : q.functions = p.functions
  classes : q.classes = p.classes.modify c.index fun cls =>
    { cls with fields := cls.fields ++ [⟨new.id, init⟩] }

structure ParamAdded (p : Program) (f : FunctionId) (new : Definition) (q : Program) : Prop where
  builds : p.Builds {f} ∅ ∅ q
  fresh : new.id = ⟨p.definitions.size⟩
  definitions : q.definitions = p.definitions.push new
  functions : q.functions = p.functions.modify f.index fun decl =>
    { decl with params := decl.params ++ [new.id] }
  classes : q.classes = p.classes

structure MemberAdded (p : Program) (c : ClassId) (list : ClassDecl → ClassDecl)
    (new : FunctionDecl) (q : Program) : Prop where
  builds : p.Builds ∅ {c} ∅ q
  fresh : new.id = ⟨p.functions.size⟩
  receiver : ∃ receiver, q.definitions = p.definitions.push receiver ∧
    receiver.kind = .parameter ∧ receiver.scope = new.scope
  params : new.params = [⟨p.definitions.size⟩]
  functions : q.functions = p.functions.push new
  classes : q.classes = p.classes.modify c.index list

theorem getElem?_added {ys : Array α} {id : Ref table}
    (hfresh : id = ⟨xs.size⟩) (hys : ys = xs.push a) : ys[id.index]? = some a := by
  rw [hys, hfresh]
  exact getElem?_push_size

theorem Defined.entry {new : Definition} (h : p.Defined new q) :
    q.definitions[new.id.index]? = some new :=
  getElem?_added h.fresh h.definitions

theorem ClassAdded.entry {new : ClassDecl} (h : p.ClassAdded new q) :
    q.classes[new.id.index]? = some new :=
  getElem?_added h.fresh h.classes

theorem FunctionAdded.entry (h : p.FunctionAdded new q) : q.functions[new.id.index]? = some new :=
  getElem?_added h.fresh h.functions

theorem FieldAdded.entry {new : Definition}
    (h : p.FieldAdded c init new q) : q.definitions[new.id.index]? = some new :=
  getElem?_added h.fresh h.definitions

theorem ParamAdded.entry {new : Definition} (h : p.ParamAdded f new q) :
    q.definitions[new.id.index]? = some new :=
  getElem?_added h.fresh h.definitions

theorem MemberAdded.entry
    (h : p.MemberAdded c list new q) : q.functions[new.id.index]? = some new :=
  getElem?_added h.fresh h.functions

def newClass (id : ClassId) (name : String) (supertype : Option ClassTy) (scope : ScopeId)
    (origin : ClassOrigin) : ClassDecl :=
  { id, name, supertype, interfaces := [], typeParams := [], scope, fields := [], methods := [],
    constructors := [], initializer := none, origin, isFinal := false, layout := none }

def newFunction (id : FunctionId) (name : String) (kind : FunctionKind) (scope : ScopeId)
    (returnTy : Ty) (params : List DefnId) : FunctionDecl :=
  { id, name, kind, scope, returnTy, typeParams := [], params, body := none, chain := none,
    isBuiltin := false, isFinal := false, lowered := none }

def newConstructor (id : FunctionId) (c : ClassId) (scope : ScopeId) (receiver : DefnId) :
    FunctionDecl :=
  { newFunction id Pass.constructorName (.constructor c) scope .unit [receiver] with
    chain := some .initial }

end Program

namespace Pass

open Program

variable {p q : Program} {cls : ClassDecl} {decl : FunctionDecl}
  {d : DefnId} {s : ScopeId} {name : String} {ty : Ty} {isMutable : Bool}

/-! ## What steps give -/

theorem gives_modifyClass {change : ClassDecl → ClassDecl} : (modifyClass c change).Gives p v q ↔
      c.index < p.classes.size ∧ q = { p with classes := p.classes.modify c.index change } :=
  gives_change

theorem gives_modifyDefn {change : Definition → Definition} :
    (modifyDefn d change).Gives p v q ↔ d.index < p.definitions.size ∧
      q = { p with definitions := p.definitions.modify d.index change } :=
  gives_change

theorem gives_modifyScope {change : Scope → Scope} : (modifyScope s change).Gives p v q ↔
      s.index < p.scopes.size ∧ q = { p with scopes := p.scopes.modify s.index change } :=
  gives_change

/-- The program with one more definition, visible in its scope. -/
def define (p : Program) (new : Definition) : Program :=
  { p with
    definitions := p.definitions.push new
    scopes := p.scopes.modify new.scope.index fun s =>
      { s with names := s.names.insert new.name new.id } }

theorem gives_addDefinition {kind : DefnKind} :
    (addDefinition name kind ty isMutable s).Gives p d q ↔ s.index < p.scopes.size ∧
      d = ⟨p.definitions.size⟩ ∧ q = define p ⟨⟨p.definitions.size⟩, name, kind, ty, isMutable, s⟩ := by
  constructor
  · intro h
    obtain ⟨_, p1, hpush, h⟩ := gives_bind.mp h
    cases hpush
    obtain ⟨_, p2, hscope, h⟩ := gives_bind.mp h
    obtain ⟨hs, rfl⟩ := gives_modifyScope.mp hscope
    obtain ⟨rfl, rfl⟩ := gives_pure.mp h
    exact ⟨hs, rfl, rfl⟩
  · rintro ⟨hs, rfl, rfl⟩
    exact gives_bind.mpr ⟨_, _, rfl, gives_bind.mpr ⟨(), _, gives_modifyScope.mpr ⟨hs, rfl⟩, rfl⟩⟩

theorem gives_pushClass :
    (pushClass name supertype origin).Gives p c q ↔ c = ⟨p.classes.size⟩ ∧ q = { p with
      scopes := p.scopes.push ⟨⟨p.scopes.size⟩, some globalScope, .ofClass ⟨p.classes.size⟩, .empty⟩
      classes := p.classes.push (newClass ⟨p.classes.size⟩ name supertype ⟨p.scopes.size⟩ origin) } :=
  gives_iff rfl

theorem gives_pushFunction_global :
    (pushFunction name .global home ty).Gives p f q ↔ f = ⟨p.functions.size⟩ ∧ q = { p with
      scopes := p.scopes.push ⟨⟨p.scopes.size⟩, some home, .function ⟨p.functions.size⟩, .empty⟩
      functions := p.functions.push
        (newFunction ⟨p.functions.size⟩ name .global ⟨p.scopes.size⟩ ty []) } :=
  gives_iff rfl

theorem gives_addField :
    (addField c name ty isMutable init).Gives p d q ↔ ∃ cls, p.classes[c.index]? = some cls ∧
      cls.scope.index < p.scopes.size ∧ d = ⟨p.definitions.size⟩ ∧
      q = { define p ⟨⟨p.definitions.size⟩, name, .field c, ty, isMutable, cls.scope⟩ with
        classes := p.classes.modify c.index fun cls =>
          { cls with fields := cls.fields ++ [⟨⟨p.definitions.size⟩, init⟩] } } := by
  constructor
  · intro h
    obtain ⟨cls, hcls, h⟩ := gives_ask_bind.mp h
    obtain ⟨_, p1, hdefine, h⟩ := gives_bind.mp h
    obtain ⟨hs, rfl, rfl⟩ := gives_addDefinition.mp hdefine
    obtain ⟨_, p2, hlist, h⟩ := gives_bind.mp h
    obtain ⟨_, rfl⟩ := gives_modifyClass.mp hlist
    obtain ⟨rfl, rfl⟩ := gives_pure.mp h
    exact ⟨cls, entryAt_eq_ok.mp hcls, hs, rfl, rfl⟩
  · rintro ⟨cls, hcls, hs, rfl, rfl⟩
    exact gives_ask_bind.mpr ⟨cls, classAt_eq hcls, gives_bind.mpr ⟨_, _,
      gives_addDefinition.mpr ⟨hs, rfl, rfl⟩, gives_bind.mpr ⟨(), _,
        gives_modifyClass.mpr ⟨lt_of_get hcls, rfl⟩, rfl⟩⟩⟩

theorem gives_addParam : (addParam f name ty isMutable).Gives p d q ↔ ∃ decl,
    p.functions[f.index]? = some decl ∧ decl.scope.index < p.scopes.size ∧
      d = ⟨p.definitions.size⟩ ∧
      q = { define p ⟨⟨p.definitions.size⟩, name, .parameter, ty, isMutable, decl.scope⟩ with
        functions := p.functions.modify f.index fun decl =>
          { decl with params := decl.params ++ [⟨p.definitions.size⟩] } } := by
  constructor
  · intro h
    obtain ⟨decl, hdecl, h⟩ := gives_ask_bind.mp h
    obtain ⟨_, p1, hdefine, h⟩ := gives_bind.mp h
    obtain ⟨hs, rfl, rfl⟩ := gives_addDefinition.mp hdefine
    obtain ⟨_, p2, hlist, h⟩ := gives_bind.mp h
    obtain ⟨_, rfl⟩ := gives_modifyFunction.mp hlist
    obtain ⟨rfl, rfl⟩ := gives_pure.mp h
    exact ⟨decl, entryAt_eq_ok.mp hdecl, hs, rfl, rfl⟩
  · rintro ⟨decl, hdecl, hs, rfl, rfl⟩
    exact gives_ask_bind.mpr ⟨decl, functionAt_eq hdecl, gives_bind.mpr ⟨_, _,
      gives_addDefinition.mpr ⟨hs, rfl, rfl⟩, gives_bind.mpr ⟨(), _,
        gives_modifyFunction.mpr ⟨lt_of_get hdecl, rfl⟩, rfl⟩⟩⟩

/-! ## Members -/

def receiverOf (p : Program) (ty : Ty) (scope : ScopeId) : Definition :=
  ⟨⟨p.definitions.size⟩, receiverName, .parameter, ty, false, scope⟩

def receiverTy (c : ClassId) (cls : ClassDecl) : Ty :=
  (⟨c, cls.typeParams.map Ty.variable, false⟩ : ClassTy).toTy

/-- The program with a function that has a scope and a receiver. -/
def withMember (p : Program) (home : ScopeId) (this : Ty) (new : FunctionDecl) : Program :=
  { p with
    scopes := p.scopes.push ⟨⟨p.scopes.size⟩, some home, .function ⟨p.functions.size⟩,
      NameTable.empty.insert receiverName ⟨p.definitions.size⟩⟩
    definitions := p.definitions.push (receiverOf p this ⟨p.scopes.size⟩)
    functions := p.functions.push new }

theorem thisTy_eq (hc : p.classes[c.index]? = some cls) : p.thisTy c = .ok (receiverTy c cls) := by
  unfold Program.thisTy Program.thisClassTy
  rw [classAt_eq hc]
  rfl

theorem thisTy_ok (hc : p.classes[c.index]? = some cls) : ∃ ty, p.thisTy c = .ok ty :=
  ⟨_, thisTy_eq hc⟩

section

variable (hc : p.classes[c.index]? = some cls)
include hc

theorem gives_pushMember {kind : FunctionKind} (hkind : kind.owner? = some c) :
    (pushFunction name kind home ty).Gives p f q ↔ f = ⟨p.functions.size⟩ ∧
      q = withMember p home (receiverTy c cls)
        (newFunction ⟨p.functions.size⟩ name kind ⟨p.scopes.size⟩ ty [⟨p.definitions.size⟩]) := by
  refine gives_iff (gives_get_bind.mpr (gives_bind.mpr ⟨_, _, rfl, gives_bind.mpr ⟨(), _, rfl, ?_⟩⟩))
  rw [hkind]
  refine gives_ask_bind.mpr ⟨_, thisTy_eq hc, gives_bind.mpr ⟨_, _,
    gives_addDefinition.mpr ⟨?_, rfl, rfl⟩, gives_bind.mpr ⟨(), _,
      gives_modifyFunction.mpr ⟨?_, rfl⟩, gives_pure.mpr ⟨rfl, ?_⟩⟩⟩⟩
  · rw [size_push]
    exact Nat.lt_succ_self _
  · rw [define, size_push]
    exact Nat.lt_succ_self _
  · simp only [define, modify_push]
    rfl

theorem gives_addMethod : (addMethod c name ty).Gives p f q ↔ f = ⟨p.functions.size⟩ ∧
    q = { withMember p cls.scope (receiverTy c cls) (newFunction ⟨p.functions.size⟩ name (.method c)
        ⟨p.scopes.size⟩ ty [⟨p.definitions.size⟩]) with
      classes := p.classes.modify c.index fun cls =>
        { cls with methods := cls.methods ++ [⟨p.functions.size⟩] } } :=
  gives_iff (gives_ask_bind.mpr ⟨cls, classAt_eq hc, gives_bind.mpr ⟨_, _,
    (gives_pushMember hc rfl).mpr ⟨rfl, rfl⟩, gives_bind.mpr ⟨(), _,
      gives_modifyClass.mpr ⟨lt_of_get hc, rfl⟩, rfl⟩⟩⟩)

theorem gives_addConstructor : (addConstructor c).Gives p f q ↔ f = ⟨p.functions.size⟩ ∧
    q = { withMember p cls.scope (receiverTy c cls)
        (newConstructor ⟨p.functions.size⟩ c ⟨p.scopes.size⟩ ⟨p.definitions.size⟩) with
      classes := p.classes.modify c.index fun cls =>
        { cls with constructors := cls.constructors ++ [⟨p.functions.size⟩] } } := by
  refine gives_iff (gives_ask_bind.mpr ⟨cls, classAt_eq hc, gives_bind.mpr ⟨_, _,
    (gives_pushMember hc rfl).mpr ⟨rfl, rfl⟩, gives_bind.mpr ⟨(), _,
      gives_modifyFunction.mpr ⟨?_, rfl⟩, gives_bind.mpr ⟨(), _,
        gives_modifyClass.mpr ⟨lt_of_get hc, rfl⟩, gives_pure.mpr ⟨rfl, ?_⟩⟩⟩⟩⟩)
  · rw [withMember, size_push]
    exact Nat.lt_succ_self _
  · simp only [withMember, modify_push]
    rfl

end

/-! ## What steps ensure -/

theorem ensures_modifyFunction (hf : p.functions[f.index]? = some decl)
    (h : R () { p with functions := p.functions.modify f.index change }) :
    (modifyFunction f change).Ensures p R :=
  ⟨(), _, gives_modifyFunction.mpr ⟨lt_of_get hf, rfl⟩, h⟩

theorem ensures_modifyClass {change : ClassDecl → ClassDecl} (hc : p.classes[c.index]? = some cls)
    (h : R () { p with classes := p.classes.modify c.index change }) :
    (modifyClass c change).Ensures p R :=
  ⟨(), _, gives_modifyClass.mpr ⟨lt_of_get hc, rfl⟩, h⟩

section

variable (hp : p.Consistent)
include hp

theorem ensures_addDefinition {kind : DefnKind} (hs : s.index < p.scopes.size)
    (hcls : ∀ {c}, kind = .field c → c.index < p.classes.size) :
    (addDefinition name kind ty isMutable s).Ensures p fun d q =>
      p.Defined ⟨d, name, kind, ty, isMutable, s⟩ q :=
  ⟨_, _, gives_addDefinition.mpr ⟨hs, rfl, rfl⟩, builds_definition hp _ rfl hs hcls, rfl, rfl, rfl, rfl⟩

theorem ensures_pushClass : (pushClass name supertype origin).Ensures p fun c q => ∃ scope,
      p.ClassAdded (newClass c name supertype scope origin) q :=
  ⟨_, _, gives_pushClass.mpr ⟨rfl, rfl⟩, ⟨p.scopes.size⟩,
    builds_newClass hp (newClass ⟨p.classes.size⟩ name supertype ⟨p.scopes.size⟩ origin) rfl rfl, rfl,
    rfl, rfl, rfl⟩

theorem ensures_pushFunction_global (hhome : home.index < p.scopes.size)
    (hdeclares : p.Declares p.functions.size home) :
    (pushFunction name .global home ty).Ensures p fun f q => ∃ scope,
      p.FunctionAdded (newFunction f name .global scope ty []) q ∧
        q.definitions = p.definitions :=
  ⟨_, _, gives_pushFunction_global.mpr ⟨rfl, rfl⟩, ⟨p.scopes.size⟩, ⟨builds_newFunction hp
    (newFunction ⟨p.functions.size⟩ name .global ⟨p.scopes.size⟩ ty []) rfl rfl hhome hdeclares nofun
    rfl rfl rfl (fun h => h) (fun h hi => absurd hi (not_new rfl h))
    (fun _ h => absurd h List.not_mem_nil) (fun h => absurd rfl h) rfl, rfl, rfl, rfl⟩, rfl⟩

theorem ensures_addField (hc : p.classes[c.index]? = some cls) :
    (addField c name ty isMutable init).Ensures p fun d q =>
      p.FieldAdded c init ⟨d, name, .field c, ty, isMutable, cls.scope⟩ q := by
  obtain ⟨s, hs, _⟩ := (hp.cls hc).scope
  have hdefined := builds_definition hp ⟨⟨p.definitions.size⟩, name, .field c, ty, isMutable, cls.scope⟩
    rfl (lt_of_get hs) fun hc' => by cases hc'; exact lt_of_get hc
  exact ⟨_, _, gives_addField.mpr ⟨cls, hc, lt_of_get hs, rfl, rfl⟩, hdefined.weaken.step_class
    (builds_class hdefined.consistent fun _ => {}) fun _ => rfl, rfl, rfl, rfl, rfl⟩

theorem ensures_addParam (hf : p.functions[f.index]? = some decl) :
    (addParam f name ty isMutable).Ensures p fun d q =>
      p.ParamAdded f ⟨d, name, .parameter, ty, isMutable, decl.scope⟩ q := by
  obtain ⟨s, _, hs, _⟩ := (hp.function hf).scope
  have hdefined := builds_definition hp
    ⟨⟨p.definitions.size⟩, name, .parameter, ty, isMutable, decl.scope⟩ rfl (lt_of_get hs) nofun
  refine ⟨_, _, gives_addParam.mpr ⟨decl, hf, lt_of_get hs, rfl, rfl⟩, hdefined.weaken.step_function
    ?_ fun _ => rfl, rfl, rfl, rfl, rfl⟩
  have hok := hdefined.consistent.function hf
  refine builds_function hdefined.consistent hf (fun _ => {}) hok.owner ?_ ?_
  · intro d hd
    rcases List.mem_append.mp hd with hd | hd
    · exact hok.params d hd
    · cases List.mem_singleton.mp hd
      exact ⟨_, getElem?_push_size, rfl, rfl⟩
  · intro _ hnil
    exact absurd (List.append_eq_nil_iff.mp hnil).2 (List.cons_ne_nil _ _)

theorem builds_code (hf : p.functions[f.index]? = some decl)
    (hkeeps : ∀ decl, FunctionDecl.SameButCode decl (change decl)) :
    p.Builds {f} ∅ ∅ { p with functions := p.functions.modify f.index change } := by
  have hok := hp.function hf
  obtain ⟨_, hkind, hparams⟩ := hkeeps decl
  exact builds_function hp hf (fun decl => (hkeeps decl).toSamePlace) (by rw [hkind]; exact hok.owner)
    (by rw [hparams]; exact hok.params) (by rw [hkind, hparams]; exact hok.receiver)

theorem ensures_setBody {body : Expr} (hf : p.functions[f.index]? = some decl) :
    (setBody f body).Ensures p fun _ q => p.Builds {f} ∅ ∅ q ∧
      q.definitions = p.definitions ∧ q.classes = p.classes ∧
      q.functions = p.functions.modify f.index fun decl => { decl with body := some body } :=
  ensures_modifyFunction hf ⟨builds_code hp hf fun _ => {}, rfl, rfl, rfl⟩

section

variable (hc : p.classes[c.index]? = some cls)
include hc

theorem builds_withMember (hid : new.id = ⟨p.functions.size⟩)
    (hscope : new.scope = ⟨p.scopes.size⟩) (hkind : new.kind.owner? = some c)
    (hparams : new.params = [⟨p.definitions.size⟩]) :
    p.Builds ∅ ∅ ∅ (withMember p cls.scope this new) := by
  have hhome : cls.scope.index < p.scopes.size := by
    obtain ⟨_, hs, _⟩ := (hp.cls hc).scope
    exact lt_of_get hs
  refine builds_newFunction hp new hid hscope hhome (.member hc) (fun hc' => ?_)
    (by rw [hid, hscope]; rfl) rfl rfl getElem?_push_lt (fun hd hi => ?_) (fun d hd => ?_)
    (fun _ => by rw [hparams]; exact List.cons_ne_nil _ _) rfl
  · cases hkind.symm.trans hc'
    exact lt_of_get hc
  · obtain ⟨rfl, rfl⟩ := getElem?_push_new hd hi
    exact ⟨rfl, rfl, hscope.symm⟩
  · rw [hparams] at hd
    cases List.mem_singleton.mp hd
    exact ⟨_, getElem?_push_size, rfl, hscope.symm⟩

theorem ensures_pushFunction_member {kind : FunctionKind} (hkind : kind.owner? = some c) :
    (pushFunction name kind cls.scope ty).Ensures p fun f q => ∃ scope this,
      p.FunctionAdded (newFunction f name kind scope ty [⟨p.definitions.size⟩]) q ∧
        q.definitions = p.definitions.push (receiverOf p this scope) :=
  ⟨_, _, (gives_pushMember hc hkind).mpr ⟨rfl, rfl⟩, ⟨p.scopes.size⟩, _,
    ⟨builds_withMember hp hc rfl rfl hkind rfl, rfl, rfl, rfl⟩, rfl⟩

theorem memberAdded (hid : new.id = ⟨p.functions.size⟩) (hscope : new.scope = ⟨p.scopes.size⟩)
    (hkind : new.kind.owner? = some c) (hparams : new.params = [⟨p.definitions.size⟩])
    (hlist : ∀ cls, ClassDecl.SamePlace cls (list cls)) :
    p.MemberAdded c list new { withMember p cls.scope this new with
      classes := p.classes.modify c.index list } := by
  have hbuilds : p.Builds ∅ ∅ ∅ (withMember p cls.scope this new) :=
    builds_withMember hp hc hid hscope hkind hparams
  exact ⟨hbuilds.weaken.step_class (builds_class hbuilds.consistent hlist) fun _ => rfl, hid,
    ⟨_, rfl, rfl, hscope.symm⟩, hparams, rfl, rfl⟩

theorem ensures_addMethod : (addMethod c name ty).Ensures p fun f q => ∃ scope, p.MemberAdded c
      (fun cls => { cls with methods := cls.methods ++ [f] })
      (newFunction f name (.method c) scope ty [⟨p.definitions.size⟩]) q :=
  ⟨_, _, (gives_addMethod hc).mpr ⟨rfl, rfl⟩, ⟨p.scopes.size⟩,
    memberAdded hp hc rfl rfl rfl rfl fun _ => {}⟩

theorem ensures_addConstructor : (addConstructor c).Ensures p fun f q => ∃ scope, p.MemberAdded c
      (fun cls => { cls with constructors := cls.constructors ++ [f] })
      (newConstructor f c scope ⟨p.definitions.size⟩) q :=
  ⟨_, _, (gives_addConstructor hc).mpr ⟨rfl, rfl⟩, ⟨p.scopes.size⟩,
    memberAdded hp hc rfl rfl rfl rfl fun _ => {}⟩

end

end

end Pass

end StackBackend
