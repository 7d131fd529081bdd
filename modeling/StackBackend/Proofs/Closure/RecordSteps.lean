import StackBackend.Proofs.Closure.Records

/-! Adding the records of closure conversion, step by step. Every step succeeds, and leaves
behind records that are right and the entry it was taken for. -/

namespace StackBackend

open Array (size_modify getElem?_modify)
open Function (update)
open RefMap (find?_insert_self exists_find?_insert)

variable {k : ClassId} {d receiver : DefnId} {r : Program} {defn : Definition} {cls : ClassDecl}
  {f : FunctionId} {shell : ContextShell} {s : ScopeId} {plan' : ClosurePlan} {moved' : Set DefnId}
  {inherited : Nat} {decl : FunctionDecl} {ty : Ty} {made : List ClassOrigin}
  {shapes : ClassId → RecordShape} {shape : RecordShape}

namespace Program

variable {p q : Program} {c : Captures} {xs : List ContextShell} {ys : List ClosureShell}
  {moved : Set DefnId} {plan : ClosurePlan}

section

variable (h : p.Recording c xs ys made shapes moved plan q)
include h

theorem Recording.addDefinition {new : Definition} (hnew : q.Defined new r) :
    p.Recording c xs ys made shapes moved plan r := by
  have hclasses : r.classes.size = q.classes.size := by rw [hnew.classes]
  have hr := h.step hnew.builds (h.planned.mono hnew.builds.changes nofun nofun) id nofun nofun nofun
    (fun hdecl hi => absurd hi (not_new (by rw [hnew.functions]) hdecl))
    ((hnew.builds.changes.origins hclasses).trans h.origins)
    (fun hk hlt => hk.elim nofun fun hle => absurd hlt (by omega)) fun _ _ => rfl
  rwa [Set.union_empty] at hr

theorem Recording.addClass {new : ClassDecl} (hnew : q.ClassAdded new r)
    (hrecord : r.IsRecord new.id shape) :
    p.Recording c xs ys (made ++ [new.origin]) (update shapes new.id shape) moved plan r ∧
      p.MadeFor r new.id new.origin := by
  have hindex : new.id.index = q.classes.size := congrArg Ref.index hnew.fresh
  refine ⟨?_, hindex ▸ h.builds.changes.classes_le, new, hnew.entry, rfl⟩
  rw [← Set.union_empty moved]
  refine h.step hnew.builds (h.planned.mono hnew.builds.changes nofun nofun) id nofun nofun nofun
    (fun hdecl hi => absurd hi (not_new (by rw [hnew.functions]) hdecl)) ?_ (fun {k} hk hlt => ?_)
    fun {k} _ hlt => ?_
  · rw [← List.append_assoc, ← h.origins, Program.origins, hnew.classes, Array.toList_push,
      List.map_append]
    rfl
  · have hle := hk.resolve_left (Set.notMem_empty k)
    rw [hnew.classes, Array.size_push] at hlt
    obtain rfl : k = new.id := Ref.ext_index (by omega)
    rw [Function.update_self]
    exact hrecord
  · refine Function.update_of_ne (fun heq => ?_) ..
    rw [heq] at hlt
    omega

theorem Recording.withPlan (hplan : p.Planned c plan' q)
    (hclosures : plan'.closures = plan.closures) : p.Recording c xs ys made shapes moved plan' q :=
  { h with
    builds := by rw [hclosures]; exact h.builds
    planned := hplan }

section

variable (hstep : q.Builds ∅ {k} ∅ r) (hk : p.classes.size ≤ k.index)
  (hclasses : r.classes.size = q.classes.size) (hrecord : r.IsRecord k shape)
include hstep hk hclasses hrecord

theorem Recording.grow
    (hfunctions : ∀ {i : Nat} {decl : FunctionDecl}, r.functions[i]? = some decl →
      q.functions.size ≤ i → p.Inert c r decl) :
    p.Recording c xs ys made (update shapes k shape) moved plan r := by
  have hnew := h.fill hstep (h.planned.mono hstep.changes nofun nofun) id nofun hk nofun hfunctions
    hclasses hrecord
  rwa [Set.union_empty] at hnew

theorem Recording.changeClass (hfunctions : r.functions = q.functions) :
    p.Recording c xs ys made (update shapes k shape) moved plan r :=
  h.grow hstep hk hclasses hrecord fun hdecl hi => absurd hi (not_new (by rw [hfunctions]) hdecl)

theorem Recording.addFunction {new : FunctionDecl} (hfunctions : r.functions = q.functions.push new)
    (hinert : p.Inert c r new) : p.Recording c xs ys made (update shapes k shape) moved plan r := by
  refine h.grow hstep hk hclasses hrecord fun hdecl hi => ?_
  rw [hfunctions] at hdecl
  obtain ⟨_, rfl⟩ := getElem?_push_new hdecl hi
  exact hinert

end

end

end Program

namespace Pass

open Program

variable {p q : Program} {c : Captures} {xs : List ContextShell} {ys : List ClosureShell}
  {moved : Set DefnId} {plan : ClosurePlan}

/-! ## Classes -/

theorem gives_relocate {v : Unit} :
    (relocate d k).Gives q v r ↔ ∃ cls defn, q.classes[k.index]? = some cls ∧
      q.definitions[d.index]? = some defn ∧ cls.scope.index < q.scopes.size ∧ r = { q with
        definitions := q.definitions.modify d.index fun defn =>
          { defn with kind := .field k, scope := cls.scope }
        scopes := q.scopes.modify cls.scope.index fun s =>
          { s with names := s.names.insert defn.name d }
        classes := q.classes.modify k.index fun cls =>
          { cls with fields := cls.fields ++ [⟨d, none⟩] } } := by
  constructor
  · intro h
    obtain ⟨cls, hcls, h⟩ := gives_ask_bind.mp h
    obtain ⟨defn, hdefn, h⟩ := gives_ask_bind.mp h
    obtain ⟨_, q1, hmove, h⟩ := gives_bind.mp h
    obtain ⟨_, rfl⟩ := gives_modifyDefn.mp hmove
    obtain ⟨_, q2, hname, h⟩ := gives_bind.mp h
    obtain ⟨hs, rfl⟩ := gives_modifyScope.mp hname
    obtain ⟨_, rfl⟩ := gives_modifyClass.mp h
    exact ⟨cls, defn, entryAt_eq_ok.mp hcls, entryAt_eq_ok.mp hdefn, hs, rfl⟩
  · rintro ⟨cls, defn, hcls, hdefn, hs, rfl⟩
    exact gives_ask_bind.mpr ⟨cls, classAt_eq hcls, gives_ask_bind.mpr ⟨defn, defnAt_eq hdefn,
      gives_bind.mpr ⟨(), _, gives_modifyDefn.mpr ⟨lt_of_get hdefn, rfl⟩, gives_bind.mpr ⟨(), _,
        gives_modifyScope.mpr ⟨hs, rfl⟩, gives_modifyClass.mpr ⟨lt_of_get hcls, rfl⟩⟩⟩⟩⟩

theorem ensures_relocate (hq : q.Consistent) (hd : q.definitions[d.index]? = some defn)
    (hkind : defn.kind ≠ .parameter)
    (hk : q.classes[k.index]? = some cls) :
    (relocate d k).Ensures q fun _ r => q.Builds ∅ {k} {d} r ∧ r.functions = q.functions ∧
      (r.classes = q.classes.modify k.index fun cls =>
        { cls with fields := cls.fields ++ [⟨d, none⟩] }) ∧
      r.definitions = q.definitions.modify d.index fun defn =>
        { defn with kind := .field k, scope := cls.scope } := by
  obtain ⟨s, hs, _⟩ := (hq.cls hk).scope
  have hmoved := builds_moved hq hd hkind (lt_of_get hk) (lt_of_get hs) (·.insert defn.name d)
  refine ⟨(), _, gives_relocate.mpr ⟨cls, defn, hk, hd, lt_of_get hs, rfl⟩, ?_, rfl, rfl, rfl⟩
  exact (hmoved.mono subset_rfl (Set.empty_subset _) subset_rfl).step_class
    (builds_class hmoved.consistent fun _ => {}) fun _ => rfl

/-- A class that has nothing but the type parameters in scope in a function. -/
theorem ensures_shell (hp : p.Consistent) (h : p.Recording c xs ys made shapes moved plan q)
    (hopen : plan.closures = .empty) {name : String} (origin : ClassOrigin)
    (hf : f.index < p.functions.size) {β : Type} {m : ClassId → Nat → Pass β} {R : β → Program → Prop}
    (hm : ∀ k r typeParams, p.Recording c xs ys (made ++ [origin]) (update shapes k ⟨origin, [], []⟩)
      moved plan r → p.MadeFor r k origin → p.scopeTypeParams f = .ok typeParams →
      (m k typeParams.length).Ensures r R) :
    (addRecordClass name origin >>= fun k => shareTypeParams k f >>= fun n => m k n).Ensures q R := by
  refine .bind (ensures_pushClass h.consistent) ?_
  rintro k r ⟨scope, hr⟩
  have hblank : r.IsRecord k ⟨origin, [], []⟩ :=
    ⟨name, scope, [], [], [], hr.entry, rfl, List.forall_mem_nil _⟩
  obtain ⟨hrec, hmade⟩ : p.Recording c xs ys (made ++ [origin]) (update shapes k ⟨origin, [], []⟩) moved
      plan r ∧ p.MadeFor r k origin := h.addClass hr hblank
  obtain ⟨hnew, cls, hcls, _⟩ := id hmade
  obtain ⟨typeParams, htypeParams⟩ := scopeTypeParams_ok hp hf
  have hkept : r.scopeTypeParams f = .ok typeParams := by
    refine (hrec.builds.changes.scopeTypeParams hp hf ?_ nofun).trans htypeParams
    rintro ⟨closure, hclosure⟩
    rw [hopen] at hclosure
    cases hclosure
  have hshared : (shareTypeParams k f).Ensures r fun n r' => n = typeParams.length ∧
      r.Builds ∅ {k} ∅ r' ∧ r'.functions = r.functions ∧
      r'.classes = r.classes.modify k.index fun cls => { cls with typeParams } :=
    .ask hkept (.bind (ensures_modifyClass hcls ⟨builds_class hrec.consistent fun _ => {}, rfl, rfl⟩)
      fun _ _ hr' => .pure ⟨rfl, hr'⟩)
  refine .bind hshared ?_
  rintro n r' ⟨rfl, hstep, hfunctions, hclasses⟩
  have hshaped := hrec.changeClass hstep hnew (by rw [hclasses, size_modify])
    (hblank.addMember hstep.changes id hclasses fun _ => ⟨_, _, rfl⟩) hfunctions
  rw [Function.update_idem] at hshaped
  exact hm k r' typeParams hshaped (hmade.mono hstep.changes) htypeParams

section

variable (h : p.Recording c xs ys made shapes moved plan q)
include h

theorem Recording.contexts_append (hcaptured : shell.scope ∈ c.captured.keys)
    (howner : p.scopeFunction shell.scope = .ok (some shell.owner))
    (hmade : p.MadeFor q shell.cls (.context shell.scope)) :
    p.Recording c (xs ++ [shell]) ys made shapes moved plan q :=
  { h with
    contextShells := List.forall_mem_append.mpr ⟨h.contextShells,
      List.forall_mem_singleton.mpr ⟨hcaptured, howner, hmade⟩⟩ }

theorem Recording.closures_append {shell : ClosureShell}
    (hclosure : shell.function ∈ c.closures.toList)
    (hmade : p.MadeFor q shell.cls (.closure shell.function))
    (hinherits : p.Inherits c shell.function shell.inherited) :
    p.Recording c xs (ys ++ [shell]) made shapes moved plan q :=
  { h with
    closureShells := List.forall_mem_append.mpr ⟨h.closureShells,
      List.forall_mem_singleton.mpr ⟨hclosure, hmade, hinherits⟩⟩ }

theorem Recording.scopeFunction (hp : p.Consistent) {o : Option FunctionId}
    (hs : p.scopeFunction s = .ok o) : q.scopeFunction s = .ok o := by
  rw [h.builds.changes.scopes.scopeFunction hp (scope_lt_of_scopeFunction hs), hs]

theorem addContextShell_ensures (hp : p.Consistent) (hopen : plan.closures = .empty) {owner : FunctionId}
    (hs : s ∈ c.captured.keys) (howner : p.scopeFunction s = .ok (some owner)) :
    (addContextShell xs s).Ensures q fun xs' r => ∃ shell, xs' = xs ++ [shell] ∧ shell.scope = s ∧
      p.Recording c xs' ys (made ++ [.context s]) (update shapes shell.cls ⟨.context s, [], []⟩)
        moved plan r := by
  have hlt := scope_lt_of_scopeFunction howner
  obtain ⟨o, ho, hfunction⟩ := scopeFunction_ok hp hlt
  cases howner.symm.trans ho
  have hf := hfunction owner rfl
  obtain ⟨decl, hdecl⟩ := exists_of_lt (hf.trans_le h.builds.changes.functions_le)
  obtain ⟨scope, hscope⟩ := exists_of_lt (hlt.trans_le h.builds.changes.scopes.size_le)
  refine .ask (Recording.scopeFunction h hp howner) (.ask (functionAt_eq hdecl)
    (.ask (scopeAt_eq hscope) (ensures_shell hp h hopen (.context s) hf ?_)))
  intro k r typeParams hr hmade _
  exact .pure ⟨_, rfl, rfl, Recording.contexts_append hr hs howner hmade⟩

theorem addClosureShell_ensures (hp : p.Consistent) (hopen : plan.closures = .empty)
    {parent : FunctionId} (hf : f ∈ c.closures.toList)
    (hparent : c.parents.find? f = some parent) (hflt : f.index < p.functions.size)
    (hlt : parent.index < p.functions.size) :
    (addClosureShell c f).Ensures q fun shell r => shell.function = f ∧
      p.Recording c xs (ys ++ [shell]) (made ++ [.closure f])
        (update shapes shell.cls ⟨.closure f, [], []⟩) moved plan r := by
  obtain ⟨decl, hdecl⟩ := exists_of_lt (hflt.trans_le h.builds.changes.functions_le)
  refine .ask (functionAt_eq hdecl) ?_
  rw [hparent]
  refine ensures_shell hp h hopen (.closure f) hlt ?_
  intro k r typeParams hr hmade htypeParams
  exact .pure ⟨rfl, Recording.closures_append hr hf hmade ⟨parent, typeParams, hparent, htypeParams, rfl⟩⟩

end

/-! ## Contexts -/

def StoredVariable (p : Program) (c : Captures) (d : DefnId) (plan : ClosurePlan)
    (moved : Set DefnId) : Prop :=
  (p.IsParam d ∧ ∃ k, plan.paramFields.find? d = some k) ∨
    (d ∈ moved ∧ (d ∈ c.caught.toList → ∃ temp, plan.caught.find? d = some temp))

/-- Definitions that are new to the first program stay as they are. -/
def KeepsNew (p q r : Program) : Prop :=
  ∀ ⦃i : Nat⦄ ⦃defn : Definition⦄, q.definitions[i]? = some defn → p.definitions.size ≤ i →
    r.definitions[i]? = some defn

theorem keepsNew_of_changes {fs : Set FunctionId} {cs : Set ClassId} {ds : Set DefnId}
    (h : q.Changes fs cs ds r) (hds : ∀ d ∈ ds, d.index < p.definitions.size) : KeepsNew p q r :=
  fun _ _ hdefn hi => h.defn_eq hdefn fun hm => absurd (hds _ hm) hi.not_gt

/-- Shapes, with more fields for a class. -/
def growing (shapes : ClassId → RecordShape) (k : ClassId) (names : List (Option String)) :
    ClassId → RecordShape :=
  update shapes k { shapes k with fields := (shapes k).fields ++ names }

theorem growing_nil : growing shapes k [] = shapes := by simp [growing]

theorem growing_append {names names' : List (Option String)} :
    growing (growing shapes k names) k names' = growing shapes k (names ++ names') := by
  simp [growing]

/-- The context was added to and nothing else was. -/
def Onward (p : Program) (c : Captures) (xs : List ContextShell) (ys : List ClosureShell)
    (made : List ClassOrigin) (shapes : ClassId → RecordShape) (moved : Set DefnId) (plan : ClosurePlan)
    (q : Program) (k : ClassId) (names : List (Option String)) (Q : ClosurePlan → Set DefnId → Prop)
    (plan' : ClosurePlan) (r : Program) : Prop :=
  ∃ moved', moved ⊆ moved' ∧ p.Recording c xs ys made (growing shapes k names) moved' plan' r ∧
    KeepsNew p q r ∧ plan.Keeps plan' ∧ plan'.closures = plan.closures ∧
    plan'.contextFields = plan.contextFields ∧ Q plan' moved'

theorem StoredVariable.mono (h : StoredVariable p c d plan moved) (hplan : plan.Keeps plan')
    (hmoved : moved ⊆ moved') :
    StoredVariable p c d plan' moved' := by
  rcases h with ⟨hd, hk⟩ | ⟨hd, htemp⟩
  · exact .inl ⟨hd, hplan.paramFields hk⟩
  · exact .inr ⟨hmoved hd, fun hcaught => hplan.caught (htemp hcaught)⟩

section

variable (h : p.Recording c xs ys made shapes moved plan q)
include h

theorem Recording.kind_iff (hd : d.index < p.definitions.size)
    (hdefn : q.definitions[d.index]? = some defn) : defn.kind = .parameter ↔ p.IsParam d := by
  by_cases hm : d ∈ moved
  · obtain ⟨hparam, _, s, _, defn', k, _, hdefn', hkind, _⟩ := h.moved d hm
    cases hdefn.symm.trans hdefn'
    rw [hkind]
    exact ⟨nofun, fun hd => absurd hd hparam⟩
  · obtain ⟨defn0, hdefn0⟩ := exists_of_lt hd
    cases hdefn.symm.trans (h.builds.changes.defn_eq hdefn0 hm)
    constructor
    · intro hkind
      exact ⟨defn, hdefn0, hkind⟩
    · rintro ⟨defn', hdefn', hkind⟩
      cases hdefn0.symm.trans hdefn'
      exact hkind

theorem Recording.relocate (hmade : p.MadeFor q k (.context s))
    (hheld : c.captured.Holds s (.variable d)) (hd : d.index < p.definitions.size)
    (hparam : ¬ p.IsParam d) (hdefn : q.definitions[d.index]? = some defn)
    (hstep : q.Builds ∅ {k} {d} r) (hfunctions : r.functions = q.functions)
    (hclasses : r.classes = q.classes.modify k.index fun cls =>
      { cls with fields := cls.fields ++ [⟨d, none⟩] })
    (hdefns : r.definitions = q.definitions.modify d.index fun defn =>
      { defn with kind := .field k, scope := cls.scope }) :
    p.Recording c xs ys made (growing shapes k [p.defnName? d]) (moved ∪ {d}) plan r := by
  have hdq := hd.trans_le h.fresh_le
  have hname : r.defnName? d = p.defnName? d :=
    (hstep.changes.defnName? hdq).trans (h.builds.changes.defnName? hd)
  obtain ⟨_, cls', hcls', _⟩ := id hmade
  refine h.fill hstep (h.planned.mono hstep.changes nofun fun d' hd' => by cases hd'; exact hd) id nofun
    hmade.1 ?_ (fun hdecl hi => absurd hi (not_new (by rw [hfunctions]) hdecl))
    (by rw [hclasses, size_modify]) (hname ▸ (h.records hmade.1 (lt_of_get hcls')).addField hstep.changes
      hclasses (hdq.trans_le hstep.changes.defns_le))
  intro d' hd'
  cases hd'
  obtain ⟨_, cls', hcls', horigin⟩ := hmade.mono hstep.changes
  refine ⟨hparam, hd, s, hheld, { defn with kind := .field k, scope := cls.scope }, k, cls', ?_,
    rfl, hcls', horigin⟩
  rw [hdefns, getElem?_modify, if_pos rfl, hdefn]
  rfl

section

/-- A new field under a name, which is that of the variable or function it is for. -/
theorem Recording.addField {new : Definition} (name : Option String) (hr : q.FieldAdded k none new r)
    (hmade : p.MadeFor q k (.context s)) (hname : some new.name = name) (hkind : new.kind = .field k) :
    p.Recording c xs ys made (growing shapes k [name]) moved plan r ∧ p.definitions.size ≤ new.id.index ∧
      r.IsFieldOf new.id (.context s) := by
  obtain ⟨_, cls, hcls, _⟩ := id hmade
  obtain ⟨_, cls', hcls', horigin'⟩ := hmade.mono hr.builds.changes
  have hnew : r.defnName? new.id = name := by
    rw [defnName?, hr.entry, ← hname]
    rfl
  refine ⟨h.changeClass hr.builds hmade.1 (by rw [hr.classes, size_modify]) (hnew ▸
    (h.records hmade.1 (lt_of_get hcls)).addField hr.builds.changes hr.classes (lt_of_get hr.entry))
    hr.functions, ?_, new, k, cls', hr.entry, hkind, hcls', horigin'⟩
  rw [hr.fresh]
  exact h.fresh_le

variable (hshell : shell ∈ xs)
include hshell

theorem captureVariable_ensures (hheld : c.captured.Holds shell.scope (.variable d))
    (hd : d.index < p.definitions.size) :
    (captureVariable shell plan d).Ensures q (Onward p c xs ys made shapes moved plan q shell.cls
      [p.defnName? d] (StoredVariable p c d)) := by
  obtain ⟨_, howner, hmade⟩ := h.contextShells shell hshell
  obtain ⟨hnew, cls, hcls, horigin⟩ := id hmade
  obtain ⟨defn, hdefn⟩ := exists_of_lt (hd.trans_le h.fresh_le)
  have hkind := Recording.kind_iff h hd hdefn
  refine .ask (defnAt_eq hdefn) ?_
  by_cases hparam : p.IsParam d
  · -- a parameter is copied
    rw [if_pos (hkind.mpr hparam)]
    refine .bind (ensures_addField h.consistent hcls) fun k r hr => .pure ?_
    obtain ⟨hrec, hfresh, hfield⟩ := Recording.addField h (p.defnName? d) hr hmade (by
      rw [← h.builds.changes.defnName? hd, defnName?, hdefn]
      rfl) rfl
    refine ⟨moved, subset_rfl, hrec.withPlan (hrec.planned.addParamField hparam hfresh hheld hfield ?_)
      rfl, keepsNew_of_changes hr.builds.changes nofun, ?_, rfl, rfl, .inl ⟨hparam, k, find?_insert_self⟩⟩
    · intro d' hd'
      obtain ⟨_, _, _, _, defn', _, _, hdefn', _⟩ := h.planned.paramFields hd'
      rw [show k = ⟨q.definitions.size⟩ from hr.fresh] at hdefn'
      exact absurd (lt_of_get hdefn') (Nat.lt_irrefl _)
    · exact ⟨id, id, id, exists_find?_insert, id, id, id⟩
  · rw [if_neg fun hk => hparam (hkind.mp hk)]
    have hcontains : plan.captures.caught.contains d = true ↔ d ∈ c.caught.toList := by
      rw [h.planned.captures, RefSet.contains_iff]
    by_cases hcaught : d ∈ c.caught.toList
    · -- a new local takes the exception
      rw [if_pos (hcontains.mpr hcaught)]
      have hscope : shell.scope.index < q.scopes.size := Nat.lt_of_lt_of_le
        (scope_lt_of_scopeFunction howner) h.builds.changes.scopes.size_le
      refine .bind (ensures_addDefinition h.consistent hscope nofun) fun temp r hr => ?_
      have hrec := h.addDefinition hr
      have hdefn' := hr.builds.changes.defn_eq hdefn nofun
      have hcls' : r.classes[shell.cls.index]? = some cls := by rw [hr.classes]; exact hcls
      refine .bind (ensures_relocate hrec.consistent hdefn' (fun hk => hparam (hkind.mp hk)) hcls') ?_
      rintro _ r' ⟨hstep, hfunctions, hclasses, hdefns⟩
      have hrec' := Recording.relocate hrec (hmade.mono hr.builds.changes) hheld hd hparam hdefn'
        hstep hfunctions hclasses hdefns
      have hfresh : temp = ⟨q.definitions.size⟩ := hr.fresh
      have hfreshLe : p.definitions.size ≤ temp.index := by
        rw [hfresh]
        exact h.fresh_le
      have hne : temp ∉ ({d} : Set DefnId) := fun hm => by
        cases hm
        omega
      have hkeeps : KeepsNew p q r' := fun i defn hi hnew => keepsNew_of_changes hstep.changes
        (fun _ hm => by cases hm; exact hd) (hr.builds.changes.defn_eq hi nofun) hnew
      refine .pure ⟨moved ∪ {d}, Set.subset_union_left, hrec'.withPlan (hrec'.planned.addCaught hparam
        hfreshLe hheld (IsLocal.mono hstep.changes ⟨_, hr.entry, rfl, rfl⟩ hne)) rfl, hkeeps, ?_, rfl,
        rfl, .inr ⟨Set.mem_union_right _ rfl, fun _ => ⟨temp, find?_insert_self⟩⟩⟩
      exact ⟨id, id, id, id, id, exists_find?_insert, id⟩
    · rw [if_neg fun hc => hcaught (hcontains.mp hc)]
      refine .bind (ensures_relocate h.consistent hdefn (fun hk => hparam (hkind.mp hk)) hcls) ?_
      rintro _ r ⟨hstep, hfunctions, hclasses, hdefns⟩
      refine .pure ⟨moved ∪ {d}, Set.subset_union_left, Recording.relocate h hmade hheld hd hparam
        hdefn hstep hfunctions hclasses hdefns, keepsNew_of_changes hstep.changes
        (fun _ hm => by cases hm; exact hd), .refl plan, rfl, rfl,
        .inr ⟨Set.mem_union_right _ rfl, fun hc => absurd hc hcaught⟩⟩

theorem captureClosure_ensures (hys : ys.map ClosureShell.function = c.closures.toList)
    (hheld : c.captured.Holds shell.scope (.closure f)) (hf : f ∈ c.closures.toList)
    (hlt : f.index < p.functions.size) :
    (captureClosure ys shell plan f).Ensures q (Onward p c xs ys made shapes moved plan q shell.cls
      [p.nameOf? f] fun plan' _ => ∃ k, plan'.closureFields.find? f = some k) := by
  obtain ⟨_, _, hmade⟩ := h.contextShells shell hshell
  obtain ⟨hnew, cls, hcls, _⟩ := id hmade
  obtain ⟨decl0, hdecl0⟩ := exists_of_lt hlt
  obtain ⟨decl, hdecl, _, hname, _⟩ := h.builds.changes.functions hdecl0
  have hsome : (ys.find? (·.function = f)).isSome = true := by
    rw [List.find?_isSome]
    rw [← hys] at hf
    obtain ⟨y, hy, hyf⟩ := List.mem_map.mp hf
    exact ⟨y, hy, decide_eq_true hyf⟩
  obtain ⟨closure, hclosure⟩ := Option.isSome_iff_exists.mp hsome
  obtain ⟨_, ⟨_, cls', hcls', _⟩, _⟩ := h.closureShells closure (List.mem_of_find?_eq_some hclosure)
  obtain ⟨ty, hty⟩ := thisTy_ok hcls'
  refine .ask (functionAt_eq hdecl) ?_
  rw [hclosure]
  refine .ask hty (.bind (ensures_addField h.consistent hcls) fun k r hr => .pure ?_)
  obtain ⟨hrec, hfresh, hfield⟩ := Recording.addField h (p.nameOf? f) hr hmade (by
    rw [nameOf?, hdecl0]
    exact congrArg some hname) rfl
  exact ⟨moved, subset_rfl, hrec.withPlan (hrec.planned.addClosureField hfresh hheld hfield) rfl,
    keepsNew_of_changes hr.builds.changes nofun, ⟨id, id, id, id, exists_find?_insert, id, id⟩, rfl, rfl, k,
    find?_insert_self⟩

end

theorem Onward.foldlM {α : Type} {step : ClosurePlan → α → Pass ClosurePlan}
    {Q : α → ClosurePlan → Set DefnId → Prop} {name : α → Option String}
    (hmono : ∀ {x plan plan' moved moved'}, Q x plan moved → ClosurePlan.Keeps plan plan' →
      moved ⊆ moved' → Q x plan' moved') (items : List α)
    (hstep : ∀ x ∈ items, ∀ {shapes moved plan q}, p.Recording c xs ys made shapes moved plan q →
      (step plan x).Ensures q (Onward p c xs ys made shapes moved plan q k [name x] (Q x))) :
    (items.foldlM step plan).Ensures q (Onward p c xs ys made shapes moved plan q k (items.map name)
      fun plan' moved' => ∀ x ∈ items, Q x plan' moved') := by
  refine Ensures.foldlM (I := fun done => Onward p c xs ys made shapes moved plan q k (done.map name)
    fun plan' moved' => ∀ x ∈ done, Q x plan' moved') items [] ⟨moved, subset_rfl, ?_,
    fun _ _ hi _ => hi, .refl plan, rfl, rfl, List.forall_mem_nil _⟩ ?_
  · rw [List.map_nil, growing_nil]
    exact h
  rintro pre x post plan1 q1 hsplit
    ⟨moved1, hmoved1, hrec1, hnew1, hkeeps1, hclosures1, hfields1, hpre⟩
  have hx : x ∈ items := List.mem_iff_append.mpr ⟨pre, post, hsplit⟩
  refine (hstep x hx hrec1).mono ?_
  rintro plan2 q2 ⟨moved2, hmoved2, hrec2, hnew2, hkeeps2, hclosures2, hfields2, hQ⟩
  rw [growing_append] at hrec2
  rw [List.map_append]
  exact ⟨moved2, hmoved1.trans hmoved2, hrec2, fun _ _ hi hle => hnew2 (hnew1 hi hle) hle,
    hkeeps1.trans hkeeps2, hclosures2.trans hclosures1,
    hfields2.trans hfields1, List.forall_mem_append.mpr
      ⟨fun y hy => hmono (hpre y hy) hkeeps2 hmoved2, List.forall_mem_singleton.mpr hQ⟩⟩

end

structure ConstructorAdded (q : Program) (k : ClassId) (new : FunctionDecl) (r : Program) : Prop where
  builds : q.Builds ∅ {k} ∅ r
  functions : r.functions = q.functions.push new
  classes : r.classes.size = q.classes.size
  records : ∀ {shape}, q.IsRecord k shape → r.IsRecord k shape
  kind : new.kind = .constructor k
  body : new.body = some (.mkBlock [])
  chain : new.chain = some .initial

theorem ensures_addPlainConstructor (hq : q.Consistent) (hk : q.classes[k.index]? = some cls) :
    (addPlainConstructor k).Ensures q fun f r => f = ⟨q.functions.size⟩ ∧
      ∃ new, ConstructorAdded q k new r := by
  refine .bind (ensures_addConstructor hq hk) ?_
  rintro f r ⟨scope, hr⟩
  obtain rfl : f = ⟨q.functions.size⟩ := hr.fresh
  refine .bind (ensures_setBody hr.builds.consistent hr.entry) ?_
  rintro _ r' ⟨hbuilds, _, hclasses, hfunctions⟩
  have hboth := hr.builds.step_function hbuilds fun hlt => hlt.false.elim
  refine .pure ⟨rfl, { newConstructor ⟨q.functions.size⟩ k scope ⟨q.definitions.size⟩ with
    body := some (.mkBlock []) }, hboth, ?_, ?_, fun hrecord => ?_, rfl, rfl, rfl⟩
  · rw [hfunctions, hr.functions]
    exact modify_push
  · rw [hclasses, hr.classes, size_modify]
  · exact hrecord.addMember hboth.changes id (hclasses.trans hr.classes) fun _ => ⟨_, _, rfl⟩

structure FilledContext (p : Program) (c : Captures) (s : ScopeId) (plan : ClosurePlan)
    (moved : Set DefnId) : Prop where
  context : ∃ context, plan.contexts.find? s = some context
  stored : ∀ {d}, c.captured.Holds s (.variable d) → StoredVariable p c d plan moved
  closures : ∀ {f}, c.captured.Holds s (.closure f) → ∃ k, plan.closureFields.find? f = some k

theorem FilledContext.mono (h : FilledContext p c s plan moved) (hplan : plan.Keeps plan')
    (hmoved : moved ⊆ moved') :
    FilledContext p c s plan' moved' :=
  ⟨hplan.contexts h.context, fun hd => (h.stored hd).mono hplan hmoved,
    fun hf => hplan.closureFields (h.closures hf)⟩

theorem fillContext_ensures (h : p.Recording c xs ys made shapes moved plan q)
    (hshell : shell ∈ xs) (hys : ys.map ClosureShell.function = c.closures.toList)
    (hvariables : ∀ {s d}, c.captured.Holds s (.variable d) → d.index < p.definitions.size)
    (hclosures : ∀ {s f}, c.captured.Holds s (.closure f) →
      f ∈ c.closures.toList ∧ f.index < p.functions.size) :
    (fillContext ys plan shell).Ensures q (Onward p c xs ys made shapes moved plan q shell.cls
      (p.contextNames c shell.scope) (FilledContext p c shell.scope)) := by
  obtain ⟨hcaptured, howner, hmade⟩ := h.contextShells shell hshell
  obtain ⟨_, cls, hcls, _⟩ := id hmade
  obtain ⟨ty, hty⟩ := thisTy_ok hcls
  have hscope : shell.scope.index < q.scopes.size := Nat.lt_of_lt_of_le
    (scope_lt_of_scopeFunction howner) h.builds.changes.scopes.size_le
  refine .ask hty (.bind (ensures_addDefinition h.consistent hscope nofun) fun localVar q1 hq1 => ?_)
  have h1 := h.addDefinition hq1
  have hfresh : p.definitions.size ≤ localVar.index := by
    rw [show localVar = ⟨q.definitions.size⟩ from hq1.fresh]
    exact h.fresh_le
  rw [h.planned.captures]
  refine .bind (Onward.foldlM (Q := StoredVariable p c) h1 (fun hQ => hQ.mono) _
    fun d hd {shapes moved plan q} hrec => captureVariable_ensures hrec hshell hd (hvariables hd)) ?_
  rintro plan2 q2 ⟨moved2, hmoved2, h2, hnew2, hkeeps2, hclosures2, hfields2, hstored⟩
  refine .bind (Onward.foldlM (Q := fun f plan _ => ∃ k, plan.closureFields.find? f = some k) h2
    (fun hQ hkeeps _ => hkeeps.closureFields hQ) _ fun f hf {shapes moved plan q} hrec =>
      captureClosure_ensures hrec hshell hys hf (hclosures hf).1 (hclosures hf).2) ?_
  rintro plan3 q3 ⟨moved3, hmoved3, h3, hnew3, hkeeps3, hclosures3, hfields3, hheld⟩
  rw [growing_append] at h3
  obtain ⟨_, _, hmade3⟩ := h3.contextShells shell hshell
  obtain ⟨hnew, cls3, hcls3, _⟩ := id hmade3
  refine .bind (ensures_addPlainConstructor h3.consistent hcls3) ?_
  rintro constructor q4 ⟨rfl, new, hadded⟩
  have hbuilds := hadded.builds
  have h4 := h3.addFunction hbuilds hnew hadded.classes
    (hadded.records (h3.records hnew (lt_of_get hcls3))) hadded.functions (.constructor hadded.body hadded.chain)
  rw [Function.update_eq_self] at h4
  have hkeepsNew : KeepsNew p q1 q4 := fun i defn hi hle =>
    hbuilds.changes.defn_eq (hnew3 (hnew2 hi hle) hle) nofun
  obtain ⟨_, cls4, hcls4, horigin4⟩ := hmade3.mono hbuilds.changes
  have hcontext : p.PlannedContext c q4 shell.scope
      ⟨⟨q3.functions.size⟩, localVar, ty⟩ :=
    ⟨hcaptured, hfresh, ⟨_, hkeepsNew hq1.entry hfresh, rfl, rfl⟩, h3.builds.changes.functions_le,
      new, shell.cls, cls4, getElem?_added rfl hadded.functions, hadded.kind, hcls4, horigin4⟩
  have hkeeps4 : plan3.Keeps { plan3 with
      contexts := plan3.contexts.insert shell.scope ⟨⟨q3.functions.size⟩, localVar, ty⟩ } :=
    ⟨exists_find?_insert, id, id, id, id, id, id⟩
  refine .pure ⟨moved3, hmoved2.trans hmoved3, h4.withPlan (h4.planned.addContext hcontext) rfl, ?_,
    (hkeeps2.trans hkeeps3).trans hkeeps4, hclosures3.trans hclosures2, hfields3.trans hfields2, ?_⟩
  · exact fun i defn hi hle => hkeepsNew (hq1.builds.changes.defn_eq hi nofun) hle
  · exact ⟨⟨_, find?_insert_self⟩, fun hd => (hstored _ hd).mono (hkeeps3.trans hkeeps4) hmoved3,
      fun hf => hheld _ hf⟩

/-! ## Closures -/

/-- A constructor with parameters that it stores into fields. -/
def storing (base : FunctionDecl) (receiver : DefnId) (params fields : List DefnId) : FunctionDecl :=
  { base with params := receiver :: params, chain := some ⟨.implicit, params.zip fields⟩ }

def closureConstructor (id : FunctionId) (k : ClassId) (scope : ScopeId) (receiver : DefnId)
    (params fields : List DefnId) : FunctionDecl :=
  { storing (newConstructor id k scope receiver) receiver params fields with
    body := some (.mkBlock []) }

theorem storing_append {base : FunctionDecl} {param field : DefnId}
    {params fields : List DefnId} (hlen : params.length = fields.length) :
    storing base receiver (params ++ [param]) (fields ++ [field]) =
      { storing base receiver params fields with
        params := receiver :: params ++ [param]
        chain := some ⟨.implicit, params.zip fields ++ [(param, field)]⟩ } := by
  rw [storing, List.zip_append hlen]
  rfl

structure FieldsAdded (p : Program) (f : FunctionId) (k : ClassId)
    (base : FunctionDecl) (receiver : DefnId) (plan : ClosurePlan) (q : Program)
    (done : List ScopeId) (plan' : ClosurePlan) (r : Program) : Prop where
  builds : q.Builds ∅ {k} ∅ r
  classes : r.classes.size = q.classes.size
  record : r.IsRecord k ⟨.closure f, (List.range done.length).map fun i => some (contextFieldName i), []⟩
  same : plan' = { plan with contextFields := plan'.contextFields }
  stores : ∃ params fields, r.functions = q.functions.push (storing base receiver params fields) ∧
    params.length = fields.length ∧
    List.Forall₂ (fun s field => plan'.contextField? f s = some field) done fields
  fields : ∀ {s field}, plan'.contextField? f s = some field →
    p.definitions.size ≤ field.index ∧ r.IsFieldOf field (.closure f)
  apart : ∀ {s t field}, plan'.contextField? f s = some field → plan'.contextField? f t = some field →
    s = t
  rest : ∀ s, s ∉ done → plan'.contextField? f s = none
  others : ∀ {g s}, g ≠ f → plan'.contextField? g s = plan.contextField? g s

section

variable {constructor : FunctionId} {base : FunctionDecl}
  {done : List ScopeId}

theorem lookup_snoc {fields : List ((FunctionId × ScopeId) × DefnId)} {g : FunctionId}
    {t : ScopeId} : (fields ++ [((f, s), d)]).lookup (g, t) =
      (fields.lookup (g, t)).or (if (g, t) = (f, s) then some d else none) := by
  rw [List.lookup_append, List.lookup_cons, List.lookup_nil]
  by_cases heq : (g, t) = (f, s)
  · rw [if_pos heq, show ((g, t) == (f, s)) = true from beq_iff_eq.mpr heq]
  · rw [if_neg heq, show ((g, t) == (f, s)) = false from beq_false_of_ne heq]

variable (hconstructor : constructor = ⟨q.functions.size⟩)
  (hle : p.definitions.size ≤ q.definitions.size) (hmade : p.MadeFor q k (.closure f))
include hconstructor hle hmade

theorem addContextField_ensures (h : FieldsAdded p f k base receiver plan q done plan' r)
    (hnew : s ∉ done) (hcontext : ∃ context, plan.contexts.find? s = some context) :
    (addContextField ⟨f, k, inherited⟩ constructor plan' done.length s).Ensures r
      (FieldsAdded p f k base receiver plan q (done ++ [s])) := by
  obtain ⟨context, hcontext⟩ := hcontext
  obtain ⟨params, fields, hfunctions, hlen, hstores⟩ := h.stores
  obtain ⟨hnewClass, cls, hcls, _⟩ := hmade.mono h.builds.changes
  have hcontext' : plan'.contexts.find? s = some context := by
    rw [h.same]
    exact hcontext
  unfold addContextField
  rw [hcontext']
  refine .bind (ensures_addField h.builds.consistent hcls) fun field r1 hr1 => ?_
  have hctor1 : r1.functions[constructor.index]? = some (storing base receiver params fields) := by
    rw [hr1.functions]
    exact getElem?_added hconstructor hfunctions
  refine .bind (ensures_addParam hr1.builds.consistent hctor1) fun param r2 hr2 => ?_
  have hctor2 : r2.functions = q.functions.push { storing base receiver params fields with
      params := receiver :: params ++ [param] } := by
    rw [hr2.functions, hr1.functions, hfunctions, hconstructor]
    exact modify_push
  have hentry2 := getElem?_added hconstructor hctor2
  refine .bind (ensures_modifyFunction (R := fun _ r3 => r2.Builds {constructor} ∅ ∅ r3 ∧
    r3.classes = r2.classes ∧ r3.definitions = r2.definitions ∧ r3.functions = q.functions.push
      (storing base receiver (params ++ [param]) (fields ++ [field]))) hentry2 ?_) ?_
  · refine ⟨builds_code hr2.builds.consistent hentry2 fun _ => {}, rfl, rfl, ?_⟩
    dsimp only
    rw [hctor2, hconstructor, storing_append hlen]
    exact modify_push
  · rintro _ r3 ⟨hbuilds3, hclasses3, hdefns3, hfunctions3⟩
    have hbuilds : r.Builds {constructor} {k} ∅ r3 := by
      have hone : r.Builds {constructor} {k} ∅ r1 := hr1.builds.mono (Set.empty_subset _)
        subset_rfl subset_rfl
      exact (hone.step_function hr2.builds fun _ => rfl).step_function hbuilds3 fun _ => rfl
    have hnotOld : ¬ constructor.index < q.functions.size := by
      rw [hconstructor]
      exact Nat.lt_irrefl _
    have hfieldFresh : p.definitions.size ≤ field.index := by
      rw [show field = ⟨r.definitions.size⟩ from hr1.fresh]
      exact hle.trans h.builds.changes.defns_le
    have hfield : r3.IsFieldOf field (.closure f) := by
      obtain ⟨_, cls3, hcls3, horigin3⟩ := (hmade.mono h.builds.changes).mono hbuilds.changes
      have hentry : r3.definitions[field.index]? = some
          ⟨field, contextFieldName done.length, .field k, context.ty, false, cls.scope⟩ := by
        rw [hdefns3, hr2.definitions]
        exact getElem?_push_lt hr1.entry
      exact ⟨_, k, cls3, hentry, rfl, hcls3, horigin3⟩
    have hnone : plan'.contextFields.lookup (f, s) = none := h.rest s hnew
    -- a scope was given its field before, or is given the new one now
    have hlookup : ∀ {t field'}, (plan'.contextFields ++ [((f, s), field)]).lookup (f, t) = some field' →
        (plan'.contextField? f t = some field' ∧ field'.index < r.definitions.size) ∨
          (t = s ∧ field' = field) := by
      intro t field' ht
      rw [lookup_snoc] at ht
      cases hold : plan'.contextFields.lookup (f, t) with
      | some k0 =>
        rw [hold, Option.some_or] at ht
        cases ht
        obtain ⟨_, _, _, _, hdefn, _⟩ := h.fields hold
        exact .inl ⟨hold, lt_of_get hdefn⟩
      | none =>
        rw [hold, Option.none_or] at ht
        by_cases heq : (f, t) = (f, s)
        · rw [if_pos heq] at ht
          cases ht
          exact .inr ⟨(Prod.ext_iff.mp heq).2, rfl⟩
        · rw [if_neg heq] at ht
          cases ht
    have hrecord : r3.IsRecord k ⟨.closure f, (List.range (done ++ [s]).length).map
        fun i => some (contextFieldName i), []⟩ := by
      have hrecord1 := h.record.addField hr1.builds.changes hr1.classes (lt_of_get hr1.entry)
      rw [show r1.defnName? field = some (contextFieldName done.length) from
        congrArg (Option.map _) hr1.entry] at hrecord1
      rw [List.length_append, List.length_singleton, List.range_succ, List.map_append]
      exact (hrecord1.mono hr2.builds.changes nofun).mono hbuilds3.changes nofun
    refine .pure ⟨?_, ?_, hrecord, ?_, ?_, ?_, ?_, ?_, ?_⟩
    · exact h.builds.step hbuilds (fun g hg hlt => by cases hg; exact absurd hlt hnotOld)
        (fun _ hm _ => hm) fun _ hm _ => hm
    · rw [hclasses3, hr2.classes, hr1.classes, size_modify, h.classes]
    · dsimp only
      rw [h.same]
    · refine ⟨_, _, hfunctions3, by simp [hlen], ?_⟩
      refine List.rel_append (hstores.imp fun t field' ht => ?_) (.cons ?_ .nil)
      · change (plan'.contextFields ++ _).lookup (f, t) = _
        rw [lookup_snoc, show plan'.contextFields.lookup (f, t) = some field' from ht, Option.some_or]
      · change (plan'.contextFields ++ _).lookup (f, s) = _
        rw [lookup_snoc, hnone, if_pos rfl, Option.none_or]
    · intro t field' ht
      rcases hlookup ht with ⟨hold, _⟩ | ⟨_, rfl⟩
      · obtain ⟨hfresh, hfield'⟩ := h.fields hold
        exact ⟨hfresh, hfield'.mono hbuilds.changes nofun⟩
      · exact ⟨hfieldFresh, hfield⟩
    · intro t t' field' ht ht'
      have hnot : field.index = r.definitions.size := congrArg Ref.index hr1.fresh
      rcases hlookup ht with ⟨hold, hlt⟩ | ⟨rfl, rfl⟩
      · rcases hlookup ht' with ⟨hold', _⟩ | ⟨_, rfl⟩
        · exact h.apart hold hold'
        · omega
      · rcases hlookup ht' with ⟨_, hlt⟩ | ⟨rfl, _⟩
        · omega
        · rfl
    · intro t ht
      rw [List.mem_append, List.mem_singleton, not_or] at ht
      change (plan'.contextFields ++ _).lookup (f, t) = _
      rw [lookup_snoc, show plan'.contextFields.lookup (f, t) = none from h.rest t ht.1,
        if_neg fun heq => ht.2 (Prod.ext_iff.mp heq).2, Option.none_or]
    · intro g t hg
      change (plan'.contextFields ++ _).lookup (g, t) = _
      rw [lookup_snoc, if_neg fun heq => hg (Prod.ext_iff.mp heq).1, Option.or_none]
      exact h.others hg

theorem addContextFields_ensures (scopes : List ScopeId) :
    ∀ {done : List ScopeId} {plan' : ClosurePlan} {r : Program},
      FieldsAdded p f k base receiver plan q done plan' r → (done ++ scopes).Nodup →
      (∀ s ∈ scopes, ∃ context, plan.contexts.find? s = some context) →
      (addContextFields ⟨f, k, inherited⟩ constructor done.length scopes plan').Ensures r
        (FieldsAdded p f k base receiver plan q (done ++ scopes)) := by
  induction scopes with
  | nil =>
    intro done plan' r h _ _
    rw [List.append_nil]
    exact .pure h
  | cons s rest ih =>
    intro done plan' r h hnodup hcontexts
    have hnew := notMem_of_nodup hnodup
    refine .bind (addContextField_ensures hconstructor hle hmade h hnew
      (hcontexts s (.head _))) fun plan1 r1 h1 => ?_
    rw [List.append_cons] at hnodup ⊢
    have hrest := ih h1 hnodup fun t ht => hcontexts t (.tail _ ht)
    rwa [List.length_append] at hrest

end

theorem closureVariable_ensures (hq : q.Consistent) (hplan : p.Planned c plan q)
    (hdecl : q.functions[f.index]? = some decl) {home : ScopeId}
    (hhome : p.declaringScope f = .ok (some home)) (hhome' : q.declaringScope f = .ok (some home))
    (hlt : home.index < q.scopes.size) (hle : p.definitions.size ≤ q.definitions.size)
    (hfields : ∀ {s}, c.captured.Holds s (.closure f) → ∃ k, plan.closureFields.find? f = some k) :
    (closureVariable plan f ty).Ensures q fun d r => q.Builds ∅ ∅ ∅ r ∧
      r.functions = q.functions ∧ r.classes = q.classes ∧ p.definitions.size ≤ d.index ∧
      p.ClosureHeld c r f d := by
  unfold closureVariable
  cases hfield : plan.closureFields.find? f with
  | some field =>
    obtain ⟨hfresh, s, hheld, hfield⟩ := hplan.closureFields hfield
    exact .pure ⟨.refl hq, rfl, rfl, hfresh, .field hheld hfield⟩
  | none =>
    refine .ask (functionAt_eq hdecl) (.ask hhome' ?_)
    refine .mono (ensures_addDefinition hq hlt nofun) fun d r hr => ?_
    refine ⟨hr.builds, hr.functions, hr.classes, ?_, .localVar (fun t hheld => ?_) hhome
      ⟨_, hr.entry, rfl, rfl⟩⟩
    · rw [show d = ⟨q.definitions.size⟩ from hr.fresh]
      exact hle
    · obtain ⟨k, hk⟩ := hfields hheld
      rw [hfield] at hk
      cases hk

theorem becomeMethod_ensures (hq : q.Consistent)
    (hdecl : q.functions[f.index]? = some decl) (hcls : q.classes[k.index]? = some cls)
    (hreceiver : q.IsParameter receiver decl.scope) :
    (becomeMethod ⟨f, k, inherited⟩ receiver).Ensures q fun _ r => q.Builds {f} {k} ∅ r ∧
      (r.classes = q.classes.modify k.index fun cls => { cls with methods := cls.methods ++ [f] }) ∧
      r.functions = q.functions.modify f.index fun decl => { decl with
        kind := .method k
        params := receiver :: decl.params
        typeParams := decl.typeParams.drop inherited } := by
  have hbuilds : q.Builds {f} ∅ ∅ { q with
      functions := q.functions.modify f.index fun decl => { decl with
        kind := .method k
        params := receiver :: decl.params
        typeParams := decl.typeParams.drop inherited } } := by
    refine builds_function hq hdecl (fun _ => {}) (fun hc => ?_) ?_
      fun _ => List.cons_ne_nil _ _
    · cases hc
      exact lt_of_get hcls
    · exact List.forall_mem_cons.mpr ⟨hreceiver, (hq.function hdecl).params⟩
  refine .after (a := ()) (gives_modifyFunction.mpr ⟨lt_of_get hdecl, rfl⟩)
    (ensures_modifyClass hcls ⟨?_, rfl, rfl⟩)
  exact (hbuilds.mono subset_rfl (Set.empty_subset _) subset_rfl).step_class
    (builds_class hbuilds.consistent fun _ => {}) fun _ => rfl

structure ClosureConstructed (p : Program) (c : Captures) (f : FunctionId) (k : ClassId)
    (plan : ClosurePlan) (q : Program) (plan' : ClosurePlan) (r : Program) : Prop where
  builds : q.Builds ∅ {k} ∅ r
  classes : r.classes.size = q.classes.size
  record : r.IsRecord k ⟨.closure f, c.closureNames f, []⟩
  planned : p.Planned c plan' r
  same : plan' = { plan with contextFields := plan'.contextFields }
  stores : ∃ scope receiver params fields, r.functions = q.functions.push
      (closureConstructor ⟨q.functions.size⟩ k scope receiver params fields) ∧
    params.length = fields.length ∧ List.Forall₂ (fun s field => plan'.contextField? f s = some field)
      ((c.needed.find? f).getD []) fields
  kept : ∀ {g s field}, plan.contextField? g s = some field → plan'.contextField? g s = some field
  others : ∀ {g s}, g ≠ f → plan'.contextField? g s = plan.contextField? g s

section

variable (h : p.Recording c xs ys made shapes moved plan q)
  (hf : f ∈ c.closures.toList) (hmade : p.MadeFor q k (.closure f))
include h hf hmade

theorem ensures_closureConstructor (hblank : q.IsRecord k ⟨.closure f, [], []⟩) (hdecl : q.functions[f.index]? = some decl)
    (hnone : ∀ s, plan.contextField? f s = none) (hnodup : ((c.needed.find? f).getD []).Nodup)
    (hcontexts : ∀ s ∈ (c.needed.find? f).getD [], ∃ context, plan.contexts.find? s = some context)
    {β : Type} {m : FunctionId → FunctionDecl → ClosurePlan → Pass β} {R : β → Program → Prop}
    (hm : ∀ plan' r, ClosureConstructed p c f k plan q plan' r →
      (m ⟨q.functions.size⟩ decl plan').Ensures r R) :
    (do
      let constructor ← addConstructor k
      let decl ← ask (·.functionAt f)
      let plan ← addContextFields ⟨f, k, inherited⟩ constructor 0 ((c.needed.find? f).getD []) plan
      setBody constructor (.mkBlock [])
      m constructor decl plan).Ensures q R := by
  obtain ⟨_, cls, hcls, _⟩ := id hmade
  refine .bind (ensures_addConstructor h.consistent hcls) ?_
  rintro constructor q1 ⟨scope, hq1⟩
  obtain rfl : constructor = ⟨q.functions.size⟩ := hq1.fresh
  refine .ask (functionAt_eq (hq1.builds.changes.function_eq hdecl nofun)) ?_
  have hstart : FieldsAdded p f k (newConstructor ⟨q.functions.size⟩ k scope ⟨q.definitions.size⟩)
      ⟨q.definitions.size⟩ plan q [] plan q1 := by
    refine ⟨hq1.builds, by rw [hq1.classes, size_modify], hblank.addMember hq1.builds.changes id
      hq1.classes fun _ => ⟨_, _, rfl⟩, rfl, ⟨[], [], hq1.functions, rfl, .nil⟩,
      fun hs => ?_, fun hs => ?_, fun s _ => hnone s, fun _ => rfl⟩ <;>
    · rw [hnone] at hs
      cases hs
  refine .bind (addContextFields_ensures rfl h.fresh_le hmade _ hstart hnodup hcontexts) ?_
  intro plan2 q2 h2
  obtain ⟨params, fields, hfunctions2, hlen, hstores⟩ := h2.stores
  refine .bind (ensures_setBody h2.builds.consistent (getElem?_added rfl hfunctions2)) ?_
  rintro _ q3 ⟨hbuilds3, _, hclasses3, hfunctions3⟩
  rw [hfunctions2, modify_push] at hfunctions3
  have hq3 : q.Builds ∅ {k} ∅ q3 := h2.builds.step_function hbuilds3 fun hlt =>
    hlt.false.elim
  have hkept : ∀ {g s field}, plan.contextField? g s = some field →
      plan2.contextField? g s = some field := by
    intro g s field hfield
    have hne : g ≠ f := fun heq => by
      rw [heq, hnone] at hfield
      cases hfield
    exact (h2.others hne).trans hfield
  refine hm plan2 q3 ⟨hq3, by rw [hclasses3, h2.classes], h2.record.mono hbuilds3.changes nofun, ?_, h2.same,
    ⟨scope, _, params, fields, hfunctions3, hlen, hstores⟩, hkept, h2.others⟩
  have hbase := h.planned.mono hq3.changes nofun
    nofun
  rw [h2.same]
  refine hbase.withContextFields hkept (fun {g s d} hd => ?_) fun {g s t d} hs ht => ?_
  · by_cases heq : g = f
    · subst heq
      obtain ⟨hfresh, hfield⟩ := h2.fields hd
      exact ⟨hf, hfresh, hfield.mono hbuilds3.changes nofun⟩
    · exact hbase.contextFields ((h2.others heq).symm.trans hd)
  · by_cases heq : g = f
    · subst heq
      exact h2.apart hs ht
    · exact hbase.apart ((h2.others heq).symm.trans hs) ((h2.others heq).symm.trans ht)

end

/-- One more function is a closure, and nothing is different for the others. -/
structure FilledClosure (p : Program) (c : Captures) (xs : List ContextShell)
    (ys : List ClosureShell) (made : List ClassOrigin) (shapes : ClassId → RecordShape)
    (moved : Set DefnId) (plan : ClosurePlan) (f : FunctionId) (k : ClassId)
    (plan' : ClosurePlan) (r : Program) : Prop where
  recording : p.Recording c xs ys made (update shapes k ⟨.closure f, c.closureNames f, [f]⟩) moved plan' r
  keeps : plan.Keeps plan'
  closure : ∃ closure, plan'.closures.find? f = some closure
  otherClosures : ∀ {g}, g ≠ f → plan'.closures.find? g = plan.closures.find? g
  otherFields : ∀ {g s}, g ≠ f → plan'.contextField? g s = plan.contextField? g s

theorem FilledClosure.of_constructed (h : p.Recording c xs ys made shapes moved plan q) {var : DefnId}
    {plan1 : ClosurePlan} {q1 q2 : Program} (hf : f ∈ c.closures.toList)
    (hinherits : p.Inherits c f inherited) (hdecl : p.functions[f.index]? = some decl)
    (hnew : plan.closures.find? f = none) (hmade : p.MadeFor q k (.closure f))
    (h1 : ClosureConstructed p c f k plan q plan1 q1) (h2 : q1.Builds ∅ ∅ ∅ q2)
    (hfunctions2 : q2.functions = q1.functions) (hclasses2 : q2.classes.size = q1.classes.size)
    (hvar : p.definitions.size ≤ var.index) (hheld : p.ClosureHeld c q2 f var)
    (hfresh : p.definitions.size ≤ receiver.index) (hreceiver : q2.IsParameter receiver decl.scope)
    (hr : q2.Builds {f} {k} ∅ r)
    (hclasses : r.classes = q2.classes.modify k.index fun cls => { cls with methods := cls.methods ++ [f] })
    (hfunctions : r.functions = q2.functions.modify f.index fun decl => { decl with
      kind := .method k
      params := receiver :: decl.params
      typeParams := decl.typeParams.drop inherited }) :
    FilledClosure p c xs ys made shapes moved plan f k { plan1 with
      closures := plan1.closures.insert f ⟨⟨q.functions.size⟩, var, receiver, ty, inherited⟩ } r := by
  obtain ⟨scope, this, params, fields, hfunctions1, hlen, hstores⟩ := h1.stores
  have hdeclq : q.functions[f.index]? = some decl := h.builds.changes.function_eq hdecl fun hm => by
    obtain ⟨closure, hclosure⟩ := hm
    rw [hnew] at hclosure
    cases hclosure
  have h₁r : q1.Builds {f} {k} ∅ r :=
    (h2.mono (Set.empty_subset _) (Set.empty_subset _) subset_rfl).step hr
      (fun _ hm _ => hm) (fun _ hm _ => hm) fun _ hm _ => hm
  have hall : q.Builds {f} {k} ∅ r :=
    (h1.builds.mono (Set.empty_subset _) subset_rfl subset_rfl).step h₁r
      (fun _ hm _ => hm) (fun _ hm _ => hm) fun _ hm _ => hm
  rw [hfunctions2, hfunctions1] at hfunctions
  have hother : ∀ {i}, q.functions.size ≤ i → r.functions[i]? = (q.functions.push
      (closureConstructor ⟨q.functions.size⟩ k scope this params fields))[i]? := by
    intro i hi
    have hold := lt_of_get hdeclq
    rw [hfunctions, getElem?_modify, if_neg (by omega)]
  have hctor : r.functions[q.functions.size]? =
      some (closureConstructor ⟨q.functions.size⟩ k scope this params fields) := by
    rw [hother le_rfl]
    exact Array.getElem?_push_size
  obtain ⟨_, cls, hcls, horigin⟩ := hmade.mono hall.changes
  have hmethod : p.BecameMethod r f receiver inherited := by
    refine ⟨decl, k, cls, hdecl, ?_, hcls, horigin⟩
    rw [hfunctions, getElem?_modify, if_pos rfl, getElem?_push_lt hdeclq]
    rfl
  have hclosure : p.PlannedClosure c plan1.contextFields r f
      ⟨⟨q.functions.size⟩, var, receiver, ty, inherited⟩ :=
    { isClosure := hf
      freshReceiver := hfresh
      receiver := ⟨decl, hdecl, hreceiver.mono hr.changes nofun⟩
      inherits := hinherits
      method := hmethod
      freshVar := hvar
      held := hheld.mono hr.changes nofun
      new := h.builds.changes.functions_le
      constructs := ⟨_, k, cls, hctor, rfl, hcls, horigin⟩
      stores := ⟨_, _, params, fields, hctor, rfl, rfl, hlen, hstores⟩ }
  have hclosures : plan1.closures = plan.closures := by rw [h1.same]
  have hplanned : p.Planned c plan1 r := by
    refine h1.planned.mono h₁r.changes (fun g hg => ?_) nofun
    cases hg
    exact ⟨lt_of_get hdecl, by rw [hclosures]; exact hnew⟩
  have hkeeps : plan.Keeps { plan1 with
      closures := plan1.closures.insert f ⟨⟨q.functions.size⟩, var, receiver, ty, inherited⟩ } := by
    refine ⟨?_, ?_, ?_, ?_, ?_, ?_, h1.kept⟩
    · rw [h1.same]; exact id
    · rw [hclosures]; exact exists_find?_insert
    · rw [h1.same]; exact id
    · rw [h1.same]; exact id
    · rw [h1.same]; exact id
    · rw [h1.same]; exact id
  refine ⟨?_, hkeeps, ⟨_, find?_insert_self⟩, fun hne => ?_, h1.others⟩
  · have hrec := h.fill hall (hplanned.addClosure hclosure) hkeeps.closures (fun g hg => ?_) hmade.1 nofun
      (fun hd hi => ?_) ?_ ((h1.record.mono h2.changes nofun).addMember hr.changes (· ++ [f])
        hclasses fun _ => ⟨_, _, rfl⟩)
    · rw [Set.union_empty] at hrec
      exact hrec
    · cases hg
      exact ⟨lt_of_get hdecl, _, find?_insert_self⟩
    · rw [hother hi] at hd
      obtain ⟨_, rfl⟩ := getElem?_push_new hd hi
      exact .constructor rfl rfl
    · rw [hclasses, size_modify, hclasses2, h1.classes]
  · rw [RefMap.find?_insert_ne hne, hclosures]

theorem fillClosure_ensures (hp : p.Consistent) (h : p.Recording c xs ys made shapes moved plan q)
    {shell : ClosureShell} (hshell : shell ∈ ys) (hlt : shell.function.index < p.functions.size)
    (hblank : shapes shell.cls = ⟨.closure shell.function, [], []⟩)
    (hnew : plan.closures.find? shell.function = none)
    (hnone : ∀ s, plan.contextField? shell.function s = none)
    (hnodup : ((c.needed.find? shell.function).getD []).Nodup)
    (hcontexts : ∀ s ∈ (c.needed.find? shell.function).getD [],
      ∃ context, plan.contexts.find? s = some context)
    (hclosureFields : ∀ {s}, c.captured.Holds s (.closure shell.function) →
      ∃ k, plan.closureFields.find? shell.function = some k) :
    (fillClosure plan shell).Ensures q
      (FilledClosure p c xs ys made shapes moved plan shell.function shell.cls) := by
  obtain ⟨f, k, inherited⟩ := shell
  obtain ⟨hf, hmade, hinherits⟩ := h.closureShells _ hshell
  obtain ⟨hnewClass, cls, hcls, _⟩ := id hmade
  obtain ⟨ty, hty⟩ := thisTy_ok hcls
  obtain ⟨decl, hdecl⟩ := exists_of_lt hlt
  have hdeclq : q.functions[f.index]? = some decl := h.builds.changes.function_eq hdecl fun hm => by
    obtain ⟨closure, hclosure⟩ := hm
    rw [hnew] at hclosure
    cases hclosure
  unfold fillClosure
  rw [h.planned.captures]
  refine .ask hty ?_
  dsimp only at hblank hnew hnone hnodup hcontexts hclosureFields hlt ⊢
  refine ensures_closureConstructor h hf hmade (hblank ▸ h.records hnewClass (lt_of_get hcls)) hdeclq hnone
    hnodup hcontexts ?_
  intro plan1 q1 h1
  obtain ⟨_, _, _, _, hfunctions1, _⟩ := h1.stores
  have hchanges : p.Changes _ ∅ moved q1 :=
    (h.builds.step_class h1.builds fun hlt => absurd hnewClass hlt.not_ge).changes
  have hdecl1 : q1.functions[f.index]? = some decl := by
    rw [hfunctions1]
    exact getElem?_push_lt hdeclq
  obtain ⟨home, _, hhome, hhomeLt, _⟩ := enclosingFunction_ok hp hlt
  refine .bind (closureVariable_ensures h1.builds.consistent h1.planned hdecl1 hhome
    ((hchanges.declaringScope hp hlt).trans hhome)
    (hhomeLt.trans_le hchanges.scopes.size_le) hchanges.defns_le ?_) ?_
  · intro s hs
    rw [h1.same]
    exact hclosureFields hs
  rintro var q2 ⟨hq2, hfunctions2, hclasses2, hvar, hheld⟩
  have hdecl2 : q2.functions[f.index]? = some decl := by rw [hfunctions2]; exact hdecl1
  obtain ⟨sc, _, hsc, _⟩ := (hq2.consistent.function hdecl2).scope
  refine .bind (ensures_addDefinition hq2.consistent (lt_of_get hsc) nofun) fun receiver q3 hq3 => ?_
  have hdecl3 : q3.functions[f.index]? = some decl := by rw [hq3.functions]; exact hdecl2
  have hq3' := hq2.step_empty hq3.builds
  obtain ⟨_, cls3, hcls3, _⟩ := (hmade.mono h1.builds.changes).mono hq3'.changes
  have hreceiver : q3.IsParameter receiver decl.scope := ⟨_, hq3.entry, rfl, rfl⟩
  have hfresh : p.definitions.size ≤ receiver.index := by
    rw [show receiver = ⟨q2.definitions.size⟩ from hq3.fresh]
    exact hchanges.defns_le.trans hq2.changes.defns_le
  refine .bind (becomeMethod_ensures hq3.builds.consistent hdecl3 hcls3 hreceiver) ?_
  rintro _ r ⟨hr, hclasses, hfunctions⟩
  exact .pure (.of_constructed h hf hinherits hdecl hnew hmade h1 hq3'
    (by rw [hq3.functions, hfunctions2]) (by rw [hq3.classes, hclasses2]) hvar
    (hheld.mono hq3.builds.changes nofun) hfresh hreceiver hr hclasses hfunctions)

end Pass

end StackBackend
