import StackBackend.Compile
import StackBackend.Proofs.Closure.Confined

/-! The members that a program leaves implicit. Functions and definitions that are there stay,
classes get initializers and constructors and nothing else, and what is added lies in no other
function. A program that has all of these members is left as it is. -/

namespace StackBackend

open Checked List

variable {list : ClassDecl → ClassDecl} {stores : List Stmt}

namespace Program

variable {p q r r' : Program} {c : ClassId}

/-- Classes that were declared have initializers and constructors, and globals are initialized. -/
structure Complete (p : Program) : Prop where
  initializer : ∀ {i : Nat} {cls : ClassDecl}, p.classes[i]? = some cls → cls.origin = .declared →
    cls.initializer.isSome = true
  constructors : ∀ {i : Nat} {cls : ClassDecl}, p.classes[i]? = some cls → cls.origin = .declared →
    cls.constructors ≠ []
  globals : p.initFunction.isSome = true

structure Filled (p r : Program) : Prop where
  consistent : r.Consistent
  shaped : r.Shaped
  changes : p.Changes ∅ Set.univ ∅ r
  size : r.classes.size = p.classes.size
  classes : ∀ {i : Nat} {cls cls' : ClassDecl}, p.classes[i]? = some cls → r.classes[i]? = some cls' →
    ∃ initializer constructors, cls' = { cls with initializer, constructors }
  new : ∀ {i : Nat} {decl : FunctionDecl}, r.functions[i]? = some decl → p.functions.size ≤ i →
    r.enclosingFunction ⟨i⟩ = .ok none ∧ ∀ a ∈ decl.atoms, r.Knows a

theorem Filled.refl (hp : p.Consistent) (h : p.Shaped) : p.Filled p where
  consistent := hp
  shaped := h
  changes := (Changes.refl p).mono (Set.empty_subset _) (Set.empty_subset _) (Set.empty_subset _)
  size := rfl
  classes {i cls cls'} hcls hcls' := by
    cases hcls.symm.trans hcls'
    exact ⟨cls.initializer, cls.constructors, rfl⟩
  new hdecl hle := absurd hle (not_new rfl hdecl)

theorem Knows.mono {a : Atom} (h : p.Enlarges q) (ha : p.Knows a) : q.Knows a :=
  ⟨fun g hg => (ha.1 g hg).trans_le h.functions,
    fun d hd => (ha.2 d hd).trans_le h.definitions⟩

theorem Filled.step {cs : Set ClassId} (h : p.Filled r) (hb : r.Builds ∅ cs ∅ r') (hr' : r'.Shaped)
    (hsize : r'.classes.size = r.classes.size)
    (hclasses : ∀ {i : Nat} {cls cls' : ClassDecl}, r.classes[i]? = some cls →
      r'.classes[i]? = some cls' → ∃ initializer constructors, cls' = { cls with initializer, constructors })
    (hnew : ∀ {i : Nat} {decl : FunctionDecl}, r'.functions[i]? = some decl → r.functions.size ≤ i →
      r'.enclosingFunction ⟨i⟩ = .ok none ∧ ∀ a ∈ decl.atoms, r'.Knows a) : p.Filled r' where
  consistent := hb.consistent
  shaped := hr'
  changes := h.changes.trans hb.changes (fun _ hf _ => hf) (fun _ _ _ => Set.mem_univ _)
    fun _ hd _ => hd
  size := hsize.trans h.size
  classes {i cls cls'} hcls hcls' := by
    obtain ⟨cls1, hcls1, _⟩ := h.changes.classes hcls
    obtain ⟨initializer, constructors, rfl⟩ := h.classes hcls hcls1
    obtain ⟨initializer', constructors', rfl⟩ := hclasses hcls1 hcls'
    exact ⟨initializer', constructors', rfl⟩
  new {i decl} hdecl hle := by
    by_cases hi : i < r.functions.size
    · obtain ⟨decl0, hdecl0⟩ := exists_of_lt hi
      cases hdecl.symm.trans (hb.changes.function_eq hdecl0 nofun)
      obtain ⟨hhome, hknown⟩ := h.new hdecl0 hle
      refine ⟨?_, fun a ha => (hknown a ha).mono hb.changes.enlarges⟩
      rw [hb.changes.enclosingFunction h.consistent (f := ⟨i⟩) hi, hhome]
    · exact hnew hdecl (Nat.le_of_not_lt hi)

/-! ## Members that join a class -/

/-- A member with code that is listed by its class and named nowhere else. -/
structure Joined (r : Program) (c : ClassId) (list : ClassDecl → ClassDecl) (r' : Program) : Prop where
  builds : r.Builds ∅ {c} ∅ r'
  shaped : r'.Shaped
  classes : r'.classes = r.classes.modify c.index list
  new : ∀ {i : Nat} {decl : FunctionDecl}, r'.functions[i]? = some decl → r.functions.size ≤ i →
    r'.enclosingFunction ⟨i⟩ = .ok none ∧ ∀ a ∈ decl.atoms, r'.Knows a

def HasMembers (p : Program) (c : ClassId) : Prop :=
  ∀ cls, p.classes[c.index]? = some cls → cls.initializer.isSome = true ∧ cls.constructors ≠ []

/-- Changes to a class that only add initializers and constructors. -/
structure AddsMembers (list : ClassDecl → ClassDecl) : Prop where
  keeps : ∀ cls, ∃ initializer constructors, list cls = { cls with initializer, constructors }
  initializer : ∀ cls, cls.initializer.isSome = true → (list cls).initializer.isSome = true
  constructors : ∀ cls, cls.constructors ≠ [] → (list cls).constructors ≠ []

theorem Joined.class_of (h : r.Joined c list r') {i : Nat}
    {cls' : ClassDecl} (hcls' : r'.classes[i]? = some cls') :
    ∃ cls, r.classes[i]? = some cls ∧ cls' = if c.index = i then list cls else cls := by
  rw [h.classes, Array.getElem?_modify] at hcls'
  by_cases hi : c.index = i
  · rw [if_pos hi] at hcls'
    obtain ⟨cls, hcls, rfl⟩ := Option.map_eq_some_iff.mp hcls'
    exact ⟨cls, hcls, (if_pos hi).symm⟩
  · rw [if_neg hi] at hcls'
    exact ⟨cls', hcls', (if_neg hi).symm⟩

theorem Filled.join (h : p.Filled r) (hjoined : r.Joined c list r')
    (hlist : AddsMembers list) : p.Filled r' := by
  refine h.step hjoined.builds hjoined.shaped (by rw [hjoined.classes, Array.size_modify])
    (fun {i cls cls'} hcls hcls' => ?_) hjoined.new
  obtain ⟨cls0, hcls0, rfl⟩ := hjoined.class_of hcls'
  cases hcls.symm.trans hcls0
  by_cases hi : c.index = i
  · rw [if_pos hi]
    exact hlist.keeps cls
  · rw [if_neg hi]
    exact ⟨cls.initializer, cls.constructors, rfl⟩

theorem Joined.hasMembers (hjoined : r.Joined c list r')
    (hlist : AddsMembers list) {c' : ClassId} (h : r.HasMembers c') : r'.HasMembers c' := by
  intro cls' hcls'
  obtain ⟨cls, hcls, rfl⟩ := hjoined.class_of hcls'
  obtain ⟨hinitializer, hconstructors⟩ := h cls hcls
  by_cases hi : c.index = c'.index
  · rw [if_pos hi]
    exact ⟨hlist.initializer cls hinitializer, hlist.constructors cls hconstructors⟩
  · rw [if_neg hi]
    exact ⟨hinitializer, hconstructors⟩

/-! ## The whole program -/

/-- The program with all members that it left implicit. -/
structure MembersAdded (p q : Program) : Prop where
  consistent : q.Consistent
  shaped : q.Shaped
  complete : q.Complete
  scopes : p.KeepsScopes q
  definitions : ∀ {i : Nat} {d : Definition}, p.definitions[i]? = some d → q.definitions[i]? = some d
  functions : ∀ {i : Nat} {f : FunctionDecl}, p.functions[i]? = some f → q.functions[i]? = some f
  enclosing : ∀ {f : FunctionId}, f.index < p.functions.size →
    q.enclosingFunction f = p.enclosingFunction f
  new : ∀ {i : Nat} {decl : FunctionDecl}, q.functions[i]? = some decl → p.functions.size ≤ i →
    q.enclosingFunction ⟨i⟩ = .ok none ∧ ∀ a ∈ decl.atoms, q.Knows a
  strings : q.strings = p.strings

theorem MembersAdded.namesKnown (h : p.MembersAdded q) (hknown : p.NamesKnown) : q.NamesKnown := by
  intro f decl hdecl a ha
  by_cases hf : f.index < p.functions.size
  · obtain ⟨decl0, hdecl0⟩ := exists_of_lt hf
    cases hdecl.symm.trans (h.functions hdecl0)
    obtain ⟨hfunction, hdefn⟩ := hknown hdecl0 a ha
    refine ⟨fun g hg => ?_, fun d hd => ?_⟩
    · obtain ⟨_, hdecl⟩ := exists_of_lt (hfunction g hg)
      exact lt_of_get (h.functions hdecl)
    · obtain ⟨_, hd⟩ := exists_of_lt (hdefn d hd)
      exact lt_of_get (h.definitions hd)
  · exact (h.new hdecl (Nat.le_of_not_lt hf)).2 a ha

theorem Filled.membersAdded {init : Option FunctionId} (hp : p.Consistent) (h : p.Filled r)
    (hcomplete : ∀ c : ClassId, (∀ cls, p.classes[c.index]? = some cls → cls.origin = .declared) →
      r.HasMembers c) (hinit : init.isSome = true) :
    p.MembersAdded { r with initFunction := init } where
  consistent := h.consistent.congr rfl rfl rfl rfl
  shaped := h.shaped.congr rfl rfl rfl rfl
  complete := by
    have hmembers : ∀ {i : Nat} {cls : ClassDecl}, r.classes[i]? = some cls →
        cls.origin = .declared → cls.initializer.isSome = true ∧ cls.constructors ≠ [] := by
      intro i cls hcls horigin
      refine hcomplete ⟨i⟩ (fun cls0 hcls0 => ?_) cls hcls
      obtain ⟨_, _, rfl⟩ := h.classes hcls0 hcls
      exact horigin
    exact ⟨fun hcls horigin => (hmembers hcls horigin).1, fun hcls horigin =>
      (hmembers hcls horigin).2, hinit⟩
  scopes := ⟨h.changes.scopes.kept⟩
  definitions hd := h.changes.defn_eq hd nofun
  functions hf := h.changes.function_eq hf nofun
  enclosing {f} hf := by
    rw [← h.changes.enclosingFunction hp hf]
    exact enclosingFunction_congr rfl rfl
  new {i decl} hdecl hle := by
    obtain ⟨hhome, hknown⟩ := h.new hdecl hle
    refine ⟨?_, hknown⟩
    rw [← hhome]
    exact enclosingFunction_congr rfl rfl
  strings := congrArg (·.2.2.1) h.changes.others

end Program

namespace Pass

open Program

variable {p q r r' : Program} {c : ClassId}

/-! ## Values of fields and globals -/

theorem forall_atomsOfStores {P : Atom → Prop}
    (h : ∀ store ∈ stores, ∃ e, store = .expr e ∧ ∀ a ∈ e.atoms, P a) :
    ∀ a ∈ atomsOfStmts stores, P a := by
  induction stores with
  | nil => exact forall_mem_nil _
  | cons store rest ih =>
    obtain ⟨⟨e, rfl, he⟩, hrest⟩ := forall_mem_cons.mp h
    rw [atomsOfStmts_expr]
    exact forall_mem_append.mpr ⟨he, ih hrest⟩

/-- What the initializer of a class gives a field: the initial value, or the mark of a pointer
that is not yet assigned. -/
def initialValue? (p : Program) (field : FieldDecl) : Option Expr :=
  field.init.or (p.definitions[field.defn.index]?.bind fun defn =>
    if defn.ty.isObject then some (.uninitialized defn.ty) else none)

/-- The stores of the fields that get a value, in the order in which they are listed. -/
def initialStores (p : Program) (thisTy : Ty) (fields : List FieldDecl) : List Stmt :=
  fields.filterMap fun field => (initialValue? p field).map fun value =>
    .expr (.mkInitField (.self thisTy) field.defn value)

theorem fieldStore_eq {thisTy : Ty} {field : FieldDecl} {store : Option Stmt}
    (h : fieldStore p thisTy field = .ok store) : store = (initialValue? p field).map fun value =>
      .expr (.mkInitField (.self thisTy) field.defn value) := by
  obtain ⟨defn, hdefn, h⟩ := bind_eq_ok.mp h
  rw [initialValue?, entryAt_eq_ok.mp hdefn]
  cases hinit : field.init with
  | some value =>
    rw [hinit] at h
    cases h
    rfl
  | none =>
    rw [hinit] at h
    cases h
    cases hobject : defn.ty.isObject <;> simp [hobject]

theorem fieldStores_eq {thisTy : Ty} {fields : List FieldDecl}
    (h : fieldStores p thisTy fields = .ok stores) :
    stores = initialStores p thisTy fields := by
  obtain ⟨options, hoptions, hstores⟩ := bind_eq_ok.mp h
  cases hstores
  have hall := mapM_eq_ok.mp hoptions
  clear hoptions h
  induction hall with
  | nil => rfl
  | cons hstore _ ih =>
    unfold initialStores at ih ⊢
    rw [filterMap_cons, filterMap_cons, ih, fieldStore_eq hstore]
    rfl

theorem knows_of_initialStores {thisTy : Ty} {fields : List FieldDecl}
    (hfields : ∀ field ∈ fields, ∀ e ∈ field.init, ∀ a ∈ e.atoms, p.Knows a) :
    ∀ a ∈ atomsOfStmts (initialStores p thisTy fields), p.Knows a := by
  refine forall_atomsOfStores fun store hstore => ?_
  obtain ⟨field, hfield, hstore⟩ := mem_filterMap.mp hstore
  obtain ⟨value, hvalue, rfl⟩ := Option.map_eq_some_iff.mp hstore
  refine ⟨_, rfl, fun a ha => ?_⟩
  -- the receiver is implicit, so only the value names anything
  rw [Expr.mkInitField, Expr.atoms_plain rfl, Expr.parts, atomsOfArgs_cons, atomsOfArgs_cons] at ha
  rcases mem_append.mp ha with ha | ha
  · cases ha
  rcases mem_append.mp ha with ha | ha
  · rcases Option.or_eq_some_iff.mp hvalue with hinit | ⟨_, hmark⟩
    · exact hfields field hfield value hinit a ha
    · obtain ⟨defn, _, hmark⟩ := Option.bind_eq_some_iff.mp hmark
      split at hmark
      · cases hmark
        cases ha
      · cases hmark
  · cases mem_singleton.mp ha
    exact ⟨by simp [Atom.function?], by simp [Atom.defn?]⟩

theorem knows_of_globalStores (h : globalStores p = .ok stores)
    (hglobals : ∀ g ∈ p.globals, ∀ e ∈ g.init, ∀ a ∈ e.atoms, p.Knows a) :
    ∀ a ∈ atomsOfStmts stores, p.Knows a := by
  obtain ⟨options, hoptions, h⟩ := bind_eq_ok.mp h
  cases h
  refine forall_atomsOfStores fun store hstore => ?_
  obtain ⟨_, hmem, rfl⟩ := mem_filterMap.mp hstore
  obtain ⟨g, hg, hstore⟩ := (mem_mapM hoptions).mp hmem
  unfold globalStore at hstore
  cases hinit : g.init with
  | none => rw [hinit] at hstore; cases hstore
  | some value =>
    rw [hinit] at hstore
    obtain ⟨target, htarget, hstore⟩ := bind_eq_ok.mp hstore
    cases hstore
    obtain ⟨defn, hdefn, htarget⟩ := bind_eq_ok.mp htarget
    cases htarget
    refine ⟨_, rfl, fun a ha => ?_⟩
    rw [Expr.mkAssign, Expr.atoms_plain rfl, Expr.parts, atomsOfArgs_cons, atomsOfArgs_cons,
      atomsOfArgs_nil, append_nil, Expr.atoms_variable] at ha
    rcases mem_cons.mp ha with rfl | ha
    · exact ⟨by simp [Atom.function?], fun d hd => by cases hd; exact lt_size_of_entryAt hdefn⟩
    · exact hglobals g (Array.mem_toList_iff.mp hg) value hinit a ha

/-! ## Members of one class -/

section

variable {cls : ClassDecl} (hr : r.Consistent) (hshaped : r.Shaped)
  (hcls : r.classes[c.index]? = some cls)
include hr hshaped hcls

theorem joined_of_member {new : FunctionDecl}
    (h : r.MemberAdded c list new r') (hhome : r'.declaringScope new.id = .ok (some cls.scope))
    (hlist : ∀ cls, r'.HasKind new.id new.kind → r'.ClassShaped c.index cls →
      r'.ClassShaped c.index (list cls)) (hknown : ∀ a ∈ new.atoms, r'.Knows a) :
    r.Joined c list r' where
  builds := h.builds
  shaped := shaped_of_member hr hshaped hcls h hhome hlist
  classes := h.classes
  new {i decl} hdecl hle := by
    rw [h.functions] at hdecl
    obtain ⟨rfl, rfl⟩ := getElem?_push_new hdecl hle
    obtain ⟨cls', hcls', _, _, hscope, _⟩ := h.builds.changes.classes hcls
    refine ⟨enclosingFunction_of_class h.builds.consistent hcls' ?_, hknown⟩
    rw [hscope, ← hhome, h.fresh]

omit hshaped in
theorem addInitializer_adds (h : (addInitializer c).Gives r () r') : ∃ scope,
    r.MemberAdded c (fun cls => { cls with initializer := some ⟨r.functions.size⟩ })
      { newFunction ⟨r.functions.size⟩ initializerName (.initializer c) scope .unit
          [⟨r.definitions.size⟩] with
        body := some (.mkBlock (initialStores r' (receiverTy c cls) cls.fields)) } r' ∧
    r'.declaringScope ⟨r.functions.size⟩ = .ok (some cls.scope) := by
  obtain ⟨_, hat, h⟩ := gives_ask_bind.mp h
  cases (classAt_eq hcls).symm.trans hat
  obtain ⟨id, r1, hpush, h⟩ := gives_bind.mp h
  obtain ⟨scope, this, hadded, hdefns⟩ :=
    (ensures_pushFunction_member hr hcls (rfl : (FunctionKind.initializer c).owner? = some c)).of_gives
      hpush
  have hhome : r1.declaringScope id = .ok (some cls.scope) := by
    obtain ⟨rfl, rfl⟩ := (gives_pushMember hcls rfl).mp hpush
    exact declaringScope_of_push rfl rfl rfl rfl
  have hcls1 : r1.classes[c.index]? = some cls := by rw [hadded.classes]; exact hcls
  obtain ⟨thisTy, hthis, h⟩ := gives_ask_bind.mp h
  cases (thisTy_eq hcls1).symm.trans hthis
  obtain ⟨_, hat, h⟩ := gives_ask_bind.mp h
  cases (classAt_eq hcls1).symm.trans hat
  obtain ⟨stores, hstores, h⟩ := gives_ask_bind.mp h
  obtain rfl := fieldStores_eq hstores
  obtain ⟨_, r2, hbody, h⟩ := gives_bind.mp h
  obtain rfl : id = ⟨r.functions.size⟩ := hadded.fresh
  obtain ⟨hbuilds, hdefns2, hclasses2, hfunctions2⟩ :=
    (ensures_setBody hadded.builds.consistent hadded.entry).of_gives hbody
  obtain ⟨_, _, hmodify⟩ := gives_ask_bind.mp h
  obtain rfl := gives_modify.mp hmodify
  have hbuilt : r.Builds ∅ {c} ∅ r2 := hadded.builds.weaken.step_function hbuilds fun hlt =>
    hlt.false.elim
  have hlisted : r2.Builds ∅ {c} ∅ { r2 with classes := r2.classes.modify c.index fun cls =>
      { cls with initializer := some ⟨r.functions.size⟩ } } :=
    builds_class hbuilds.consistent fun _ => ⟨rfl, rfl, rfl, rfl⟩
  refine ⟨scope, ⟨hbuilt.step_class hlisted fun _ => rfl, rfl, ⟨_, hdefns2.trans hdefns, rfl, rfl⟩, rfl,
    hfunctions2.trans ?_, ?_⟩, ?_⟩
  · rw [hadded.functions]
    unfold initialStores initialValue?
    rw [hdefns2]
    exact modify_push
  · dsimp only
    rw [hclasses2, hadded.classes]
  · have hkept := hbuilds.changes.declaringScope hadded.builds.consistent (lt_of_get hadded.entry)
    exact hkept.trans hhome

theorem addInitializer_gives (hfields : ∀ field ∈ cls.fields, ∀ e ∈ field.init, ∀ a ∈ e.atoms, r.Knows a)
    (h : (addInitializer c).Gives r () r') :
    r.Joined c (fun cls => { cls with initializer := some ⟨r.functions.size⟩ }) r' := by
  obtain ⟨scope, hmember, hhome⟩ := addInitializer_adds hr hcls h
  refine joined_of_member hr hshaped hcls hmember hhome (fun cls hkind hshaped => ?_) fun a ha => ?_
  · exact { hshaped with
      initializer := fun m hm => by
        cases hm
        exact hkind }
  · obtain ⟨e, he, ha⟩ := mem_atomsOfArgs.mp ha
    cases mem_singleton.mp he
    exact knows_of_initialStores (fun field hfield e he a ha =>
      (hfields field hfield e he a ha).mono hmember.builds.changes.enlarges) a ha

theorem addDefaultConstructor_gives
    (h : (addConstructor c >>= fun id => setBody id (.mkBlock [])).Gives r () r') :
    r.Joined c (fun cls => { cls with constructors := cls.constructors ++ [⟨r.functions.size⟩] }) r' := by
  obtain ⟨id, r1, hadd, hbody⟩ := gives_bind.mp h
  obtain ⟨scope, hadded⟩ := (ensures_addConstructor hr hcls).of_gives hadd
  have hhome := declaringScope_of_addConstructor hcls hadd
  obtain rfl : id = ⟨r.functions.size⟩ := hadded.fresh
  obtain ⟨hbuilds, hdefns, hclasses, hfunctions⟩ :=
    (ensures_setBody hadded.builds.consistent hadded.entry).of_gives hbody
  obtain ⟨receiver, hreceiver, hkind, hscope⟩ := hadded.receiver
  have hmember : r.MemberAdded c
      (fun cls => { cls with constructors := cls.constructors ++ [⟨r.functions.size⟩] })
      { newConstructor ⟨r.functions.size⟩ c scope ⟨r.definitions.size⟩ with
        body := some (.mkBlock []) } r' := by
    refine ⟨hadded.builds.step_function hbuilds fun hlt => hlt.false.elim, rfl,
      ⟨receiver, hdefns.trans hreceiver, hkind, hscope⟩, rfl, hfunctions.trans ?_,
      hclasses.trans hadded.classes⟩
    rw [hadded.functions]
    exact modify_push
  refine joined_of_member hr hshaped hcls hmember ?_ (fun cls hkind hshaped => ?_) ?_
  · have hkept := hbuilds.changes.declaringScope hadded.builds.consistent (lt_of_get hadded.entry)
    exact hkept.trans hhome
  · exact { hshaped with
      constructors := forall_mem_append.mpr
        ⟨hshaped.constructors, forall_mem_singleton.mpr hkind⟩ }
  · exact forall_mem_nil _

end

/-! ## All members -/

theorem addMissingMembers_gives (hfilled : p.Filled r) (hc : c.index < p.classes.size)
    (hp : p.Source) (h : (addMissingMembers c).Gives r () r') :
    p.Filled r' ∧ r'.HasMembers c ∧ ∀ c', r.HasMembers c' → r'.HasMembers c' := by
  -- the field values were there, and are known
  have hvalues : ∀ {r : Program} {cls : ClassDecl}, p.Filled r → r.classes[c.index]? = some cls →
      ∀ field ∈ cls.fields, ∀ e ∈ field.init, ∀ a ∈ e.atoms, r.Knows a := by
    intro r cls hfilled hcls field hfield e he a ha
    obtain ⟨cls0, hcls0⟩ := exists_of_lt hc
    obtain ⟨_, _, rfl⟩ := hfilled.classes hcls0 hcls
    exact (knows_of_knownIn (hp.fields hcls0 field hfield e he) ha).mono hfilled.changes.enlarges
  have hinitializer : AddsMembers fun cls =>
      { cls with initializer := some ⟨r.functions.size⟩ } :=
    ⟨fun cls => ⟨_, cls.constructors, rfl⟩, fun _ _ => rfl, fun _ => id⟩
  obtain ⟨cls, hat, h⟩ := gives_ask_bind.mp h
  have hcls : r.classes[c.index]? = some cls := entryAt_eq_ok.mp hat
  obtain ⟨r1, hfilled1, hsome, hkept, h⟩ : ∃ r1, p.Filled r1 ∧
      (∀ cls, r1.classes[c.index]? = some cls → cls.initializer.isSome = true) ∧
      (∀ c', r.HasMembers c' → r1.HasMembers c') ∧
      (do if (← ask (·.classAt c)).constructors.isEmpty then
        let id ← addConstructor c
        setBody id (.mkBlock [])).Gives r1 () r' := by
    by_cases hnone : cls.initializer.isNone = true
    · rw [if_pos hnone] at h
      obtain ⟨_, r1, hadd, h⟩ := gives_bind.mp h
      have hjoined := addInitializer_gives hfilled.consistent hfilled.shaped hcls
        (hvalues hfilled hcls) hadd
      refine ⟨r1, hfilled.join hjoined hinitializer, fun cls' hcls' => ?_,
        fun c' hc' => hjoined.hasMembers hinitializer hc', h⟩
      obtain ⟨cls0, _, rfl⟩ := hjoined.class_of hcls'
      rw [if_pos rfl]
      rfl
    · rw [if_neg hnone] at h
      refine ⟨r, hfilled, fun cls' hcls' => ?_, fun _ => id, h⟩
      cases hcls.symm.trans hcls'
      exact Option.isSome_iff_ne_none.mpr fun heq => hnone (by rw [heq]; rfl)
  obtain ⟨cls1, hat1, h⟩ := gives_ask_bind.mp h
  have hcls1 : r1.classes[c.index]? = some cls1 := entryAt_eq_ok.mp hat1
  by_cases hempty : cls1.constructors.isEmpty = true
  · rw [if_pos hempty] at h
    have hjoined := addDefaultConstructor_gives hfilled1.consistent hfilled1.shaped hcls1 h
    have hconstructors : AddsMembers fun cls =>
        { cls with constructors := cls.constructors ++ [⟨r1.functions.size⟩] } :=
      ⟨fun cls => ⟨cls.initializer, _, rfl⟩, fun _ => id, fun _ _ => append_ne_nil_of_right_ne_nil _
        (cons_ne_nil _ _)⟩
    refine ⟨hfilled1.join hjoined hconstructors, fun cls' hcls' => ?_,
      fun c' hc' => hjoined.hasMembers hconstructors (hkept c' hc')⟩
    obtain ⟨cls0, hcls0, rfl⟩ := hjoined.class_of hcls'
    rw [if_pos rfl]
    exact ⟨hsome cls0 hcls0, append_ne_nil_of_right_ne_nil _ (cons_ne_nil _ _)⟩
  · rw [if_neg hempty] at h
    obtain ⟨_, rfl⟩ := gives_pure.mp h
    refine ⟨hfilled1, fun cls' hcls' => ⟨hsome cls' hcls', fun hnil => ?_⟩, hkept⟩
    cases hcls1.symm.trans hcls'
    exact hempty (List.isEmpty_iff.mpr hnil)

theorem addAllMembers_gives (hp : p.Source) (hshaped : p.Shaped) {classes : List ClassId}
    (hclasses : ∀ c ∈ classes, c.index < p.classes.size)
    (h : (classes.forM addMissingMembers).Gives p () r) :
    p.Filled r ∧ ∀ c ∈ classes, r.HasMembers c := by
  refine Gives.forM (I := fun done r => p.Filled r ∧ ∀ c ∈ done, r.HasMembers c) classes [] h
    ⟨.refl hp.consistent hshaped, forall_mem_nil _⟩ ?_
  rintro pre c post r r' hsplit ⟨hfilled, hdone⟩ hstep
  have hc : c ∈ classes := mem_iff_append.mpr ⟨pre, post, hsplit⟩
  obtain ⟨hfilled', hmembers, hkept⟩ := addMissingMembers_gives hfilled (hclasses c hc) hp hstep
  exact ⟨hfilled', forall_mem_append.mpr
    ⟨fun c' hc' => hkept c' (hdone c' hc'), forall_mem_singleton.mpr hmembers⟩⟩


theorem addGlobalInit_gives (hp : p.Source) (hfilled : p.Filled r)
    (h : addGlobalInit.Gives r () q) :
    ∃ r', p.Filled r' ∧ r'.classes = r.classes ∧ ∃ f, q = { r' with initFunction := some f } := by
  obtain ⟨stores, hstores, h⟩ := gives_ask_bind.mp h
  obtain ⟨f, r1, hadd, h⟩ := gives_bind.mp h
  obtain ⟨_, hroot, _⟩ := hfilled.consistent.root
  have hhome : r1.declaringScope f = .ok (some globalScope) := by
    obtain ⟨rfl, rfl⟩ := gives_pushFunction_global.mp hadd
    exact declaringScope_of_push rfl rfl rfl rfl
  obtain ⟨scope, hadded, hdefns⟩ :=
    (ensures_pushFunction_global hfilled.consistent (lt_of_get hroot) .top).of_gives hadd
  obtain rfl : f = ⟨r.functions.size⟩ := hadded.fresh
  obtain ⟨_, r2, hbody, h⟩ := gives_bind.mp h
  obtain rfl := gives_modify.mp h
  obtain ⟨hbuilds, hdefns2, hclasses, hfunctions⟩ :=
    (ensures_setBody hadded.builds.consistent hadded.entry).of_gives hbody
  have hbuilt : r.Builds ∅ ∅ ∅ r2 := hadded.builds.step_function hbuilds fun hlt =>
    hlt.false.elim
  have hentry : r2.functions = r.functions.push { newFunction ⟨r.functions.size⟩ globalInitName
      .global scope .unit [] with body := some (.mkBlock (if stores.isEmpty then [] else
        stores ++ [.expr .unitValue])) } := by
    rw [hfunctions, hadded.functions]
    exact modify_push
  have hshaped : r2.Shaped := by
    refine hfilled.shaped.of_changes hfilled.consistent hbuilt.changes (keepsKinds_push hentry)
      (fun hi hle howner => ?_) fun hi hnew => absurd hnew (not_new_nor (by rw [hclasses, hadded.classes]) hi)
    rw [hentry] at hi
    obtain ⟨_, rfl⟩ := getElem?_push_new hi hle
    exact absurd rfl howner
  refine ⟨r2, hfilled.step hbuilt hshaped (by rw [hclasses, hadded.classes])
    (fun {i cls cls'} hcls hcls' => ?_) fun {i decl} hdecl hle => ?_, hclasses.trans hadded.classes,
    ⟨r.functions.size⟩, rfl⟩
  · rw [hclasses, hadded.classes] at hcls'
    cases hcls.symm.trans hcls'
    exact ⟨cls.initializer, cls.constructors, rfl⟩
  · rw [hentry] at hdecl
    obtain ⟨rfl, rfl⟩ := getElem?_push_new hdecl hle
    refine ⟨enclosingFunction_of_top hbuilds.consistent ?_, fun a ha => ?_⟩
    · have hkept := hbuilds.changes.declaringScope hadded.builds.consistent (lt_of_get hadded.entry)
      exact hkept.trans hhome
    · have hknows := knows_of_globalStores hstores fun g hg e he a ha => by
        rw [show r.globals = p.globals from congrArg (·.2.1) hfilled.changes.others] at hg
        exact (knows_of_knownIn (hp.globals g hg e he) ha).mono hfilled.changes.enlarges
      obtain ⟨e, he, ha⟩ := mem_atomsOfArgs.mp ha
      cases mem_singleton.mp he
      refine (hknows a ?_).mono hbuilt.changes.enlarges
      rw [Expr.mkBlock, Expr.atoms_block] at ha
      split at ha
      · cases ha
      · rw [atomsOfStmts_append] at ha
        rcases mem_append.mp ha with ha | ha
        · exact ha
        · cases ha

theorem synthesizeMembers_gives (hp : p.Source) (hshaped : p.Shaped)
    (h : synthesizeMembers.Gives p () q) : p.MembersAdded q := by
  obtain ⟨_, r, hmembers, h⟩ := gives_bind.mp (gives_get_bind.mp h)
  have hdeclared : ∀ {c : ClassId},
      c ∈ ((p.classes.filter (·.origin = .declared)).map ClassDecl.id).toList ↔
        ∃ cls, p.classes[c.index]? = some cls ∧ cls.origin = .declared := by
    intro c
    rw [Array.mem_toList_iff, Array.mem_map]
    constructor
    · rintro ⟨cls, hcls, rfl⟩
      obtain ⟨hmem, horigin⟩ := Array.mem_filter.mp hcls
      obtain ⟨i, hi⟩ := Array.mem_iff_getElem?.mp hmem
      rw [(hp.consistent.cls hi).id]
      exact ⟨cls, hi, of_decide_eq_true horigin⟩
    · rintro ⟨cls, hcls, horigin⟩
      refine ⟨cls, Array.mem_filter.mpr ⟨Array.mem_of_getElem? hcls, decide_eq_true horigin⟩, ?_⟩
      rw [(hp.consistent.cls hcls).id]
  obtain ⟨hfilled, hall⟩ := addAllMembers_gives hp hshaped (fun c hc => by
    obtain ⟨cls, hcls, _⟩ := hdeclared.mp hc
    exact lt_of_get hcls) hmembers
  have hcomplete : ∀ c : ClassId,
      (∀ cls, p.classes[c.index]? = some cls → cls.origin = .declared) → r.HasMembers c := by
    intro c horigin cls hcls
    obtain ⟨cls0, hcls0⟩ := exists_of_lt (hfilled.size ▸ lt_of_get hcls)
    exact hall c (hdeclared.mpr ⟨cls0, hcls0, horigin cls0 hcls0⟩) cls hcls
  have h := gives_get_bind.mp h
  by_cases hnone : r.initFunction.isNone = true
  · rw [if_pos hnone] at h
    obtain ⟨r', hfilled', hclasses, f, rfl⟩ := addGlobalInit_gives hp hfilled h
    refine hfilled'.membersAdded hp.consistent (fun c horigin cls hcls => hcomplete c horigin cls ?_) rfl
    rw [← hclasses]
    exact hcls
  · rw [if_neg hnone] at h
    obtain ⟨_, rfl⟩ := gives_pure.mp h
    exact hfilled.membersAdded hp.consistent hcomplete (Option.isSome_iff_ne_none.mpr fun heq =>
      hnone (by rw [heq]; rfl))

theorem synthesizeMembers_idle (hp : p.Consistent) (h : p.Complete) :
    synthesizeMembers.Gives p () p := by
  refine gives_get_bind.mpr (gives_bind.mpr ⟨(), p, forM_again _ fun c hc => ?_, gives_get_bind.mpr ?_⟩)
  · obtain ⟨cls, hcls, rfl⟩ := Array.mem_map.mp (Array.mem_toList_iff.mp hc)
    obtain ⟨hmem, horigin⟩ := Array.mem_filter.mp hcls
    obtain ⟨i, hi⟩ := Array.mem_iff_getElem?.mp hmem
    have horigin := of_decide_eq_true horigin
    have hat : p.classAt cls.id = .ok cls := by
      rw [(hp.cls hi).id]
      exact classAt_eq (c := ⟨i⟩) hi
    refine gives_ask_bind.mpr ⟨cls, hat, ?_⟩
    rw [if_neg (by simpa [Option.isSome_iff_ne_none] using h.initializer hi horigin)]
    refine gives_ask_bind.mpr ⟨cls, hat, ?_⟩
    rw [if_neg (by simpa using h.constructors hi horigin)]
    exact gives_pure.mpr ⟨rfl, rfl⟩
  · rw [if_neg (by simpa [Option.isSome_iff_ne_none] using h.globals)]
    exact gives_pure.mpr ⟨rfl, rfl⟩

end Pass

end StackBackend
