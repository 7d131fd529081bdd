import StackBackend.Closure.Records
import StackBackend.Proofs.Closure.Captured
import StackBackend.Proofs.Layout.Steps
import StackBackend.Proofs.Program.Building

/-! What a closure plan says about the program it was made with. Every context has a local
in its scope, every closure a receiver in the scope of its function, and what is captured is
a field of the context of its home. All of these are new, but for captured locals, which
moved; so what is said stays right while more records are added. The classes that are new
have the shapes that were planned for them. -/

namespace StackBackend

open RefMap (of_find?_insert forall_find?_insert)

variable {plan : ClosurePlan} {d k : DefnId} {s : ScopeId} {o : ClassOrigin} {f : FunctionId}
  {c : Captures}

/-- The second plan has an entry for all that the first one has one for, and the same fields
for contexts. -/
structure ClosurePlan.Keeps (plan plan' : ClosurePlan) : Prop where
  contexts : ∀ {s}, (∃ x, plan.contexts.find? s = some x) → ∃ x, plan'.contexts.find? s = some x
  closures : ∀ {f}, (∃ x, plan.closures.find? f = some x) → ∃ x, plan'.closures.find? f = some x
  values : ∀ {f}, (∃ x, plan.values.find? f = some x) → ∃ x, plan'.values.find? f = some x
  paramFields : ∀ {d}, (∃ x, plan.paramFields.find? d = some x) →
    ∃ x, plan'.paramFields.find? d = some x
  closureFields : ∀ {f}, (∃ x, plan.closureFields.find? f = some x) →
    ∃ x, plan'.closureFields.find? f = some x
  caught : ∀ {d}, (∃ x, plan.caught.find? d = some x) → ∃ x, plan'.caught.find? d = some x
  contextFields : ∀ {f s k}, plan.contextField? f s = some k → plan'.contextField? f s = some k

theorem ClosurePlan.Keeps.refl (plan : ClosurePlan) :
    plan.Keeps plan := ⟨id, id, id, id, id, id, id⟩

theorem ClosurePlan.Keeps.trans {plan' plan'' : ClosurePlan} (h : plan.Keeps plan')
    (h' : plan'.Keeps plan'') : plan.Keeps plan'' where
  contexts hx := h'.contexts (h.contexts hx)
  closures hx := h'.closures (h.closures hx)
  values hx := h'.values (h.values hx)
  paramFields hx := h'.paramFields (h.paramFields hx)
  closureFields hx := h'.closureFields (h.closureFields hx)
  caught hx := h'.caught (h.caught hx)
  contextFields hx := h'.contextFields (h.contextFields hx)

def Captures.origins (c : Captures) : List ClassOrigin :=
  c.captured.keys.map .context ++ (c.closures.toList ++ c.values.toList).map .closure

/-- Closures number the fields for their contexts. -/
def Captures.closureNames (c : Captures) (f : FunctionId) : List (Option String) :=
  (List.range ((c.needed.find? f).getD []).length).map fun i => some (contextFieldName i)

/-- What a record was made for, the names of its fields, and its methods. -/
structure RecordShape where
  origin : ClassOrigin
  fields : List (Option String)
  methods : List FunctionId

namespace Program

variable {p q r : Program} {fs : Set FunctionId} {cs : Set ClassId} {ds : Set DefnId}

/-! ## Entries -/

def IsLocal (p : Program) (d : DefnId) (s : ScopeId) : Prop :=
  ∃ defn, p.definitions[d.index]? = some defn ∧ defn.kind = .localVar ∧ defn.scope = s

def IsFieldOf (p : Program) (d : DefnId) (origin : ClassOrigin) : Prop :=
  ∃ defn c cls, p.definitions[d.index]? = some defn ∧ defn.kind = .field c ∧
    p.classes[c.index]? = some cls ∧ cls.origin = origin

def Constructs (p : Program) (f : FunctionId) (origin : ClassOrigin) : Prop :=
  ∃ decl c cls, p.functions[f.index]? = some decl ∧ decl.kind = .constructor c ∧
    p.classes[c.index]? = some cls ∧ cls.origin = origin

/-- A nested function that is now the method of its closure. The class has its first type
parameters. -/
def BecameMethod (p q : Program) (f : FunctionId) (receiver : DefnId) (inherited : Nat) : Prop :=
  ∃ decl k cls, p.functions[f.index]? = some decl ∧
    q.functions[f.index]? = some { decl with
      kind := .method k
      params := receiver :: decl.params
      typeParams := decl.typeParams.drop inherited } ∧
    q.classes[k.index]? = some cls ∧ cls.origin = .closure f

/-- A constructor that stores its parameters into the fields for the given contexts. -/
def StoresContexts (p : Program) (contextFields : List ((FunctionId × ScopeId) × DefnId))
    (f constructor : FunctionId) (scopes : List ScopeId) : Prop :=
  ∃ decl receiver params fields, p.functions[constructor.index]? = some decl ∧
    decl.params = receiver :: params ∧ decl.chain = some ⟨.implicit, params.zip fields⟩ ∧
    params.length = fields.length ∧
    List.Forall₂ (fun s field => contextFields.lookup (f, s) = some field) scopes fields

section

variable (h : p.Changes fs cs ds q)
include h

theorem IsLocal.mono (hd : p.IsLocal d s) (hn : d ∉ ds) : q.IsLocal d s := by
  obtain ⟨defn, hdefn, hkind, hscope⟩ := hd
  exact ⟨defn, h.defn_eq hdefn hn, hkind, hscope⟩

theorem IsFieldOf.mono (hd : p.IsFieldOf d o) (hn : d ∉ ds) : q.IsFieldOf d o := by
  obtain ⟨defn, c, cls, hdefn, hkind, hcls, horigin⟩ := hd
  obtain ⟨cls', hcls', _, _, _, horigin', _⟩ := h.classes hcls
  exact ⟨defn, c, cls', h.defn_eq hdefn hn, hkind, hcls', horigin'.trans horigin⟩

theorem Constructs.mono (hf : p.Constructs f o) (hn : f ∉ fs) : q.Constructs f o := by
  obtain ⟨decl, c, cls, hdecl, hkind, hcls, horigin⟩ := hf
  obtain ⟨cls', hcls', _, _, _, horigin', _⟩ := h.classes hcls
  exact ⟨decl, c, cls', h.function_eq hdecl hn, hkind, hcls', horigin'.trans horigin⟩

theorem BecameMethod.mono {receiver : DefnId} {inherited : Nat}
    (hf : r.BecameMethod p f receiver inherited) (hn : f ∉ fs) :
    r.BecameMethod q f receiver inherited := by
  obtain ⟨decl, k, cls, hdecl, hp, hcls, horigin⟩ := hf
  obtain ⟨cls', hcls', _, _, _, horigin', _⟩ := h.classes hcls
  exact ⟨decl, k, cls', hdecl, h.function_eq hp hn, hcls', horigin'.trans horigin⟩

theorem StoresContexts.mono {ks ks' : List ((FunctionId × ScopeId) × DefnId)}
    {constructor : FunctionId} {scopes : List ScopeId}
    (hf : p.StoresContexts ks f constructor scopes) (hn : constructor ∉ fs)
    (hks : ∀ {s k}, ks.lookup (f, s) = some k → ks'.lookup (f, s) = some k) :
    q.StoresContexts ks' f constructor scopes := by
  obtain ⟨decl, receiver, params, fields, hdecl, hparams, hchain, hlen, hfields⟩ := hf
  exact ⟨decl, receiver, params, fields, h.function_eq hdecl hn, hparams, hchain, hlen,
    hfields.imp fun _ _ => hks⟩

end

/-! ## Plans -/

structure PlannedContext (p : Program) (c : Captures) (q : Program) (s : ScopeId)
    (context : ContextClass) : Prop where
  captured : s ∈ c.captured.keys
  fresh : p.definitions.size ≤ context.localVar.index
  localVar : q.IsLocal context.localVar s
  new : p.functions.size ≤ context.constructor.index
  constructs : q.Constructs context.constructor (.context s)

/-- The variable that holds a closure is a field of a context if it is captured and a local
otherwise. -/
inductive ClosureHeld (p : Program) (c : Captures) (q : Program) (f : FunctionId) (d : DefnId) :
    Prop where
  | field {s : ScopeId} (captured : c.captured.Holds s (.closure f))
    (field : q.IsFieldOf d (.context s))
  | localVar {s : ScopeId} (free : ∀ t, ¬ c.captured.Holds t (.closure f))
    (home : p.declaringScope f = .ok (some s)) (isLocal : q.IsLocal d s)

theorem ClosureHeld.mono (h : r.ClosureHeld c p f d) (hq : p.Changes fs cs ds q) (hn : d ∉ ds) :
    r.ClosureHeld c q f d := by
  cases h with
  | field hheld hfield => exact .field hheld (hfield.mono hq hn)
  | localVar hfree hhome hlocal => exact .localVar hfree hhome (hlocal.mono hq hn)

/-- How many type parameters a closure shares with the function around it. -/
def Inherits (p : Program) (c : Captures) (f : FunctionId) (n : Nat) : Prop :=
  ∃ parent typeParams, c.parents.find? f = some parent ∧ p.scopeTypeParams parent = .ok typeParams ∧
    n = typeParams.length

structure PlannedClosure (p : Program) (c : Captures)
    (contextFields : List ((FunctionId × ScopeId) × DefnId)) (q : Program) (f : FunctionId)
    (closure : ClosureClass) : Prop where
  isClosure : f ∈ c.closures.toList
  freshReceiver : p.definitions.size ≤ closure.receiver.index
  receiver : ∃ decl, p.functions[f.index]? = some decl ∧
    q.IsParameter closure.receiver decl.scope
  inherits : p.Inherits c f closure.inherited
  method : p.BecameMethod q f closure.receiver closure.inherited
  freshVar : p.definitions.size ≤ closure.var.index
  held : p.ClosureHeld c q f closure.var
  new : p.functions.size ≤ closure.constructor.index
  constructs : q.Constructs closure.constructor (.closure f)
  stores : q.StoresContexts contextFields f closure.constructor ((c.needed.find? f).getD [])

def IsParam (p : Program) (d : DefnId) : Prop :=
  ∃ defn, p.definitions[d.index]? = some defn ∧ defn.kind = .parameter

/-- Each entry of the plan is right. -/
structure Planned (p : Program) (c : Captures) (plan : ClosurePlan) (q : Program) : Prop where
  captures : plan.captures = c
  contexts : ∀ {s context}, plan.contexts.find? s = some context → p.PlannedContext c q s context
  closures : ∀ {f closure}, plan.closures.find? f = some closure →
    p.PlannedClosure c plan.contextFields q f closure
  values : ∀ {f value}, plan.values.find? f = some value → f ∈ c.values.toList ∧
    p.functions.size ≤ value.constructor.index ∧ q.Constructs value.constructor (.closure f)
  paramFields : ∀ {d k}, plan.paramFields.find? d = some k → p.IsParam d ∧
    p.definitions.size ≤ k.index ∧ ∃ s, c.captured.Holds s (.variable d) ∧ q.IsFieldOf k (.context s)
  /-- Parameters do not share a field. -/
  distinct : ∀ {d d' k}, plan.paramFields.find? d = some k → plan.paramFields.find? d' = some k →
    d = d'
  closureFields : ∀ {f k}, plan.closureFields.find? f = some k → p.definitions.size ≤ k.index ∧
    ∃ s, c.captured.Holds s (.closure f) ∧ q.IsFieldOf k (.context s)
  contextFields : ∀ {f s k}, plan.contextField? f s = some k → f ∈ c.closures.toList ∧
    p.definitions.size ≤ k.index ∧ q.IsFieldOf k (.closure f)
  /-- Nor do the contexts of a closure. -/
  apart : ∀ {f s t k}, plan.contextField? f s = some k → plan.contextField? f t = some k → s = t
  caught : ∀ {d temp}, plan.caught.find? d = some temp → ¬ p.IsParam d ∧
    p.definitions.size ≤ temp.index ∧ ∃ s, c.captured.Holds s (.variable d) ∧ q.IsLocal temp s

theorem planned_start : p.Planned c (.ofCaptures c) q where
  captures := rfl
  contexts h := nomatch h
  closures h := nomatch h
  values h := nomatch h
  paramFields h := nomatch h
  distinct h := nomatch h
  closureFields h := nomatch h
  contextFields h := nomatch h
  apart h := nomatch h
  caught h := nomatch h

theorem Planned.mono (hplan : r.Planned c plan p) (h : p.Changes fs cs ds q)
    (hfs : ∀ f ∈ fs, f.index < r.functions.size ∧ plan.closures.find? f = none)
    (hds : ∀ d ∈ ds, d.index < r.definitions.size) : r.Planned c plan q := by
  have hd : ∀ {d : DefnId}, r.definitions.size ≤ d.index → d ∉ ds := fun hle hm =>
    absurd (hds _ hm) (by omega)
  have hf : ∀ {f : FunctionId}, r.functions.size ≤ f.index → f ∉ fs := fun hle hm =>
    absurd (hfs _ hm).1 (by omega)
  refine ⟨hplan.captures, fun hs => ?_, fun {f closure} hc => ?_, fun hv => ?_, fun hk => ?_,
    hplan.distinct, fun hk => ?_, fun hk => ?_, hplan.apart, fun ht => ?_⟩
  · have hctx := hplan.contexts hs
    exact ⟨hctx.captured, hctx.fresh, hctx.localVar.mono h (hd hctx.fresh), hctx.new,
      hctx.constructs.mono h (hf hctx.new)⟩
  · have hclosure := hplan.closures hc
    have hn : f ∉ fs := fun hm => by
      have hnone := (hfs f hm).2
      rw [hnone] at hc
      cases hc
    obtain ⟨decl, hdecl, hparam⟩ := hclosure.receiver
    exact ⟨hclosure.isClosure, hclosure.freshReceiver,
      ⟨decl, hdecl, hparam.mono h (hd hclosure.freshReceiver)⟩, hclosure.inherits,
      hclosure.method.mono h hn,
      hclosure.freshVar, hclosure.held.mono h (hd hclosure.freshVar), hclosure.new,
      hclosure.constructs.mono h (hf hclosure.new), hclosure.stores.mono h (hf hclosure.new) id⟩
  · obtain ⟨hvalue, hnew, hconstructs⟩ := hplan.values hv
    exact ⟨hvalue, hnew, hconstructs.mono h (hf hnew)⟩
  · obtain ⟨hparam, hfresh, s, hheld, hfield⟩ := hplan.paramFields hk
    exact ⟨hparam, hfresh, s, hheld, hfield.mono h (hd hfresh)⟩
  · obtain ⟨hfresh, s, hheld, hfield⟩ := hplan.closureFields hk
    exact ⟨hfresh, s, hheld, hfield.mono h (hd hfresh)⟩
  · obtain ⟨hclosure, hfresh, hfield⟩ := hplan.contextFields hk
    exact ⟨hclosure, hfresh, hfield.mono h (hd hfresh)⟩
  · obtain ⟨hparam, hfresh, s, hheld, hlocal⟩ := hplan.caught ht
    exact ⟨hparam, hfresh, s, hheld, hlocal.mono h (hd hfresh)⟩

section

variable (hplan : p.Planned c plan q)
include hplan

theorem Planned.addContext {context : ContextClass} (hs : p.PlannedContext c q s context) :
    p.Planned c { plan with contexts := plan.contexts.insert s context } q :=
  { hplan with
    contexts := forall_find?_insert hs hplan.contexts }

theorem Planned.addClosure {closure : ClosureClass}
    (hf : p.PlannedClosure c plan.contextFields q f closure) :
    p.Planned c { plan with closures := plan.closures.insert f closure } q :=
  { hplan with
    closures := forall_find?_insert hf hplan.closures }

theorem Planned.addValue {value : ValueClass} (hf : f ∈ c.values.toList)
    (hnew : p.functions.size ≤ value.constructor.index)
    (hconstructs : q.Constructs value.constructor (.closure f)) :
    p.Planned c { plan with values := plan.values.insert f value } q :=
  { hplan with
    values := forall_find?_insert ⟨hf, hnew, hconstructs⟩ hplan.values }

theorem Planned.addParamField (hd : p.IsParam d)
    (hfresh : p.definitions.size ≤ k.index) (hheld : c.captured.Holds s (.variable d))
    (hfield : q.IsFieldOf k (.context s))
    (hunused : ∀ {d'}, plan.paramFields.find? d' ≠ some k) :
    p.Planned c { plan with paramFields := plan.paramFields.insert d k } q :=
  { hplan with
    paramFields := forall_find?_insert ⟨hd, hfresh, s, hheld, hfield⟩ hplan.paramFields
    distinct := fun hk hk' => by
      rcases of_find?_insert hk with ⟨hd, heq⟩ | ⟨_, hold⟩
      · rcases of_find?_insert hk' with ⟨hd', _⟩ | ⟨_, hold'⟩
        · rw [hd, hd']
        · rw [heq] at hold'
          exact absurd hold' hunused
      · rcases of_find?_insert hk' with ⟨_, heq⟩ | ⟨_, hold'⟩
        · rw [heq] at hold
          exact absurd hold hunused
        · exact hplan.distinct hold hold' }

theorem Planned.addClosureField (hfresh : p.definitions.size ≤ k.index)
    (hheld : c.captured.Holds s (.closure f))
    (hfield : q.IsFieldOf k (.context s)) :
    p.Planned c { plan with closureFields := plan.closureFields.insert f k } q :=
  { hplan with
    closureFields := forall_find?_insert ⟨hfresh, s, hheld, hfield⟩ hplan.closureFields }

theorem Planned.addCaught {temp : DefnId} (hd : ¬ p.IsParam d)
    (hfresh : p.definitions.size ≤ temp.index) (hheld : c.captured.Holds s (.variable d))
    (hlocal : q.IsLocal temp s) :
    p.Planned c { plan with caught := plan.caught.insert d temp } q :=
  { hplan with
    caught := forall_find?_insert ⟨hd, hfresh, s, hheld, hlocal⟩ hplan.caught }

theorem Planned.withContextFields {ks : List ((FunctionId × ScopeId) × DefnId)}
    (hkept : ∀ {f s k}, plan.contextField? f s = some k → ks.lookup (f, s) = some k)
    (hks : ∀ {f s k}, ks.lookup (f, s) = some k → f ∈ c.closures.toList ∧
      p.definitions.size ≤ k.index ∧ q.IsFieldOf k (.closure f))
    (hapart : ∀ {f s t k}, ks.lookup (f, s) = some k → ks.lookup (f, t) = some k → s = t) :
    p.Planned c { plan with contextFields := ks } q :=
  { hplan with
    closures := fun hf =>
      { hplan.closures hf with
        stores := (hplan.closures hf).stores.mono (.refl q) nofun hkept }
    contextFields := hks
    apart := hapart }

end

/-! ## Shapes of classes -/

def defnName? (p : Program) (d : DefnId) : Option String := p.definitions[d.index]?.map Definition.name

def defnTy? (p : Program) (d : DefnId) : Option Ty := p.definitions[d.index]?.map Definition.ty

def contextNames (p : Program) (c : Captures) (s : ScopeId) : List (Option String) :=
  (c.captured.itemsOf s).defns.toList.map p.defnName? ++
    (c.captured.itemsOf s).closures.toList.map p.nameOf?

def origins (p : Program) : List ClassOrigin := p.classes.toList.map ClassDecl.origin

variable {k : ClassId} {shape : RecordShape}

/-- A class right below the root with the given shape. -/
def IsRecord (p : Program) (k : ClassId) (shape : RecordShape) : Prop :=
  ∃ name scope typeParams fields constructors, p.classes[k.index]? =
      some { newClass k name (some ⟨objectClass, [], false⟩) scope shape.origin with
        typeParams, fields, constructors
        methods := shape.methods } ∧
    fields.map (fun field => p.defnName? field.defn) = shape.fields ∧
    ∀ field ∈ fields, field.defn.index < p.definitions.size

section

variable (h : p.Changes fs cs ds q)
include h

theorem Changes.defnName? (hd : d.index < p.definitions.size) : q.defnName? d = p.defnName? d := by
  obtain ⟨defn, hdefn⟩ := exists_of_lt hd
  obtain ⟨defn', hdefn', _, hname, _⟩ := h.defns hdefn
  unfold Program.defnName?
  rw [hdefn, hdefn']
  exact congrArg some hname

theorem Changes.defnTy? (hd : d.index < p.definitions.size) : q.defnTy? d = p.defnTy? d := by
  obtain ⟨defn, hdefn⟩ := exists_of_lt hd
  obtain ⟨defn', hdefn', _, _, hty, _⟩ := h.defns hdefn
  unfold Program.defnTy?
  rw [hdefn, hdefn']
  exact congrArg some hty

theorem Changes.origins (hsize : q.classes.size = p.classes.size) : q.origins = p.origins := by
  refine List.ext_getElem? fun i => ?_
  rw [Program.origins, Program.origins, List.getElem?_map, List.getElem?_map, Array.getElem?_toList,
    Array.getElem?_toList]
  cases hi : p.classes[i]? with
  | some cls =>
    obtain ⟨cls', hcls', _, _, _, horigin, _⟩ := h.classes hi
    rw [hcls']
    exact congrArg some horigin
  | none =>
    rw [Array.getElem?_eq_none_iff, ← hsize, ← Array.getElem?_eq_none_iff] at hi
    rw [hi]

theorem IsRecord.mono (hk : p.IsRecord k shape) (hn : k ∉ cs) : q.IsRecord k shape := by
  obtain ⟨name, scope, typeParams, fields, constructors, hcls, hnames, hlt⟩ := hk
  refine ⟨name, scope, typeParams, fields, constructors, h.class_eq hcls hn, ?_, fun field hfield =>
    (hlt field hfield).trans_le h.defns_le⟩
  rw [← hnames]
  exact List.map_congr_left fun field hfield => h.defnName? (hlt field hfield)

theorem IsRecord.addField (hk : p.IsRecord k shape)
    (hclasses : q.classes = p.classes.modify k.index fun cls =>
      { cls with fields := cls.fields ++ [⟨d, none⟩] })
    (hd : d.index < q.definitions.size) :
    q.IsRecord k { shape with fields := shape.fields ++ [q.defnName? d] } := by
  obtain ⟨name, scope, typeParams, fields, constructors, hcls, hnames, hlt⟩ := hk
  refine ⟨name, scope, typeParams, fields ++ [⟨d, none⟩], constructors, ?_, ?_, ?_⟩
  · rw [hclasses, Array.getElem?_modify, if_pos rfl, hcls]
    rfl
  · rw [List.map_append, ← hnames]
    exact congrArg (· ++ _) (List.map_congr_left fun field hfield => h.defnName? (hlt field hfield))
  · exact List.forall_mem_append.mpr ⟨fun field hfield => (hlt field hfield).trans_le h.defns_le,
      List.forall_mem_singleton.mpr hd⟩

/-- Type parameters and constructors do not matter. -/
theorem IsRecord.addMember (hk : p.IsRecord k shape) {change : ClassDecl → ClassDecl}
    (list : List FunctionId → List FunctionId)
    (hclasses : q.classes = p.classes.modify k.index change)
    (hchange : ∀ cls, ∃ typeParams constructors, change cls = { cls with
      typeParams, constructors
      methods := list cls.methods }) :
    q.IsRecord k { shape with methods := list shape.methods } := by
  obtain ⟨name, scope, typeParams, fields, constructors, hcls, hnames, hlt⟩ := hk
  obtain ⟨typeParams', constructors', hcls'⟩ := hchange _
  refine ⟨name, scope, typeParams', fields, constructors', ?_, ?_, fun field hfield =>
    (hlt field hfield).trans_le h.defns_le⟩
  · rw [hclasses, Array.getElem?_modify, if_pos rfl, hcls, Option.map_some, hcls']
  · rw [← hnames]
    exact List.map_congr_left fun field hfield => h.defnName? (hlt field hfield)

end

/-! ## Records that are being added -/

/-- A function that conversion adds: a constructor that only stores its parameters, or a
method that passes its parameters on. -/
inductive Inert (p : Program) (c : Captures) (q : Program) (decl : FunctionDecl) : Prop where
  | constructor {stored : List (DefnId × DefnId)} (body : decl.body = some (.mkBlock []))
    (chain : decl.chain = some ⟨.implicit, stored⟩)
  | forwarder {ty : Ty} {g : FunctionId} {typeArgs : List Ty} {args : List Expr}
    (body : decl.body = some (.call ty g typeArgs args)) (chain : decl.chain = none)
    (value : g ∈ c.values.toList)
    (args : ∀ a ∈ args, ∃ ty d, a = .variable ty d ∧ p.definitions.size ≤ d.index ∧
      q.IsParameter d decl.scope)

/-- A class that conversion made for the given purpose. -/
def MadeFor (p q : Program) (c : ClassId) (origin : ClassOrigin) : Prop :=
  p.classes.size ≤ c.index ∧ ∃ cls, q.classes[c.index]? = some cls ∧ cls.origin = origin

/-- A variable that moved to the context of its home. -/
def Moved (p : Program) (c : Captures) (q : Program) (d : DefnId) : Prop :=
  ¬ p.IsParam d ∧ d.index < p.definitions.size ∧
    ∃ s, c.captured.Holds s (.variable d) ∧ q.IsFieldOf d (.context s)

/-- How far the records have been added. -/
structure Recording (p : Program) (c : Captures) (contexts : List ContextShell)
    (closures : List ClosureShell) (made : List ClassOrigin) (shapes : ClassId → RecordShape)
    (moved : Set DefnId) (plan : ClosurePlan) (q : Program) : Prop where
  builds : p.Builds {f | ∃ closure, plan.closures.find? f = some closure} ∅ moved q
  planned : p.Planned c plan q
  moved : ∀ d ∈ moved, p.Moved c q d
  functions : ∀ {i : Nat} {decl : FunctionDecl}, q.functions[i]? = some decl →
    p.functions.size ≤ i → p.Inert c q decl
  origins : q.origins = p.origins ++ made
  records : ∀ {k : ClassId}, p.classes.size ≤ k.index → k.index < q.classes.size →
    q.IsRecord k (shapes k)
  contextShells : ∀ shell ∈ contexts, shell.scope ∈ c.captured.keys ∧
    p.scopeFunction shell.scope = .ok (some shell.owner) ∧
    p.MadeFor q shell.cls (.context shell.scope)
  closureShells : ∀ shell ∈ closures, shell.function ∈ c.closures.toList ∧
    p.MadeFor q shell.cls (.closure shell.function) ∧ p.Inherits c shell.function shell.inherited

section

theorem Inert.mono {decl : FunctionDecl} (h : r.Inert c p decl) (hq : p.Changes fs cs ds q)
    (hds : ∀ d ∈ ds, d.index < r.definitions.size) : r.Inert c q decl := by
  cases h with
  | constructor hbody hchain => exact .constructor hbody hchain
  | forwarder hbody hchain hvalue hargs =>
    refine .forwarder hbody hchain hvalue fun a ha => ?_
    obtain ⟨ty, d, heq, hfresh, hparam⟩ := hargs a ha
    exact ⟨ty, d, heq, hfresh, hparam.mono hq fun hm => absurd (hds d hm) (by omega)⟩

theorem MadeFor.mono (h : r.MadeFor p k o) (hq : p.Changes fs cs ds q) : r.MadeFor q k o := by
  obtain ⟨hnew, cls, hcls, horigin⟩ := h
  obtain ⟨cls', hcls', _, _, _, horigin', _⟩ := hq.classes hcls
  exact ⟨hnew, cls', hcls', horigin'.trans horigin⟩

variable {xs : List ContextShell} {ys : List ClosureShell} {moved : Set DefnId}
  {plan' : ClosurePlan} {made made' : List ClassOrigin} {shapes shapes' : ClassId → RecordShape}
  (h : p.Recording c xs ys made shapes moved plan q)
include h

theorem Recording.consistent : q.Consistent :=
  h.builds.consistent

theorem Recording.fresh_le : p.definitions.size ≤ q.definitions.size := h.builds.changes.defns_le

theorem Recording.origin_eq (hmade : p.MadeFor q k o) : (shapes k).origin = o := by
  obtain ⟨hnew, cls, hcls, rfl⟩ := hmade
  obtain ⟨_, _, _, _, _, hcls', _⟩ := h.records hnew (lt_of_get hcls)
  cases hcls.symm.trans hcls'
  rfl

theorem Recording.step (hstep : q.Builds fs cs ds r) (hplan : p.Planned c plan' r)
    (hclosures : ∀ {f}, (∃ closure, plan.closures.find? f = some closure) →
      ∃ closure, plan'.closures.find? f = some closure)
    (hfs : ∀ f ∈ fs, f.index < p.functions.size ∧ ∃ closure, plan'.closures.find? f = some closure)
    (hcs : ∀ k ∈ cs, p.classes.size ≤ k.index) (hds : ∀ d ∈ ds, p.Moved c r d)
    (hfunctions : ∀ {i : Nat} {decl : FunctionDecl}, r.functions[i]? = some decl →
      q.functions.size ≤ i → p.Inert c r decl)
    (horigins : r.origins = p.origins ++ made')
    (hrecords : ∀ {k : ClassId}, k ∈ cs ∨ q.classes.size ≤ k.index → k.index < r.classes.size →
      r.IsRecord k (shapes' k))
    (hshapes : ∀ {k : ClassId}, k ∉ cs → k.index < q.classes.size → shapes' k = shapes k) :
    p.Recording c xs ys made' shapes' (moved ∪ ds) plan' r := by
  have hdsOld : ∀ d ∈ ds, d.index < p.definitions.size := fun d hd => (hds d hd).2.1
  refine ⟨?_, hplan, ?_, ?_, horigins, ?_, ?_, ?_⟩
  · refine (h.builds.mono (fun f hf => hclosures hf) subset_rfl
      Set.subset_union_left).step hstep (fun f hf _ => (hfs f hf).2) ?_ fun d hd _ => .inr hd
    intro k hk hlt
    exact absurd (hcs k hk) (by omega)
  · intro d hd
    by_cases hm : d ∈ ds
    · exact hds d hm
    · obtain ⟨hparam, hlt, s, hheld, hfield⟩ := h.moved d (hd.resolve_right hm)
      exact ⟨hparam, hlt, s, hheld, hfield.mono hstep.changes hm⟩
  · intro i decl hdecl hi
    by_cases hq : q.functions.size ≤ i
    · exact hfunctions hdecl hq
    · obtain ⟨decl0, hdecl0⟩ := exists_of_lt (Nat.lt_of_not_le hq)
      have hn : (⟨i⟩ : FunctionId) ∉ fs := fun hm => absurd (hfs _ hm).1 (by dsimp only; omega)
      cases hdecl.symm.trans (hstep.changes.function_eq hdecl0 hn)
      exact (h.functions hdecl0 hi).mono hstep.changes hdsOld
  · intro k hnew hlt
    by_cases hk : k ∈ cs ∨ q.classes.size ≤ k.index
    · exact hrecords hk hlt
    · obtain ⟨hn, hold⟩ := not_or.mp hk
      have hold := Nat.lt_of_not_le hold
      rw [hshapes hn hold]
      exact (h.records hnew hold).mono hstep.changes hn
  · intro shell hshell
    obtain ⟨hcaptured, howner, hmade⟩ := h.contextShells shell hshell
    exact ⟨hcaptured, howner, hmade.mono hstep.changes⟩
  · intro shell hshell
    obtain ⟨hclosure, hmade, hinherits⟩ := h.closureShells shell hshell
    exact ⟨hclosure, hmade.mono hstep.changes, hinherits⟩

/-- A step that adds to one of the records. -/
theorem Recording.fill (hstep : q.Builds fs {k} ds r) (hplan : p.Planned c plan' r)
    (hclosures : ∀ {f}, (∃ closure, plan.closures.find? f = some closure) →
      ∃ closure, plan'.closures.find? f = some closure)
    (hfs : ∀ f ∈ fs, f.index < p.functions.size ∧ ∃ closure, plan'.closures.find? f = some closure)
    (hk : p.classes.size ≤ k.index) (hds : ∀ d ∈ ds, p.Moved c r d)
    (hfunctions : ∀ {i : Nat} {decl : FunctionDecl}, r.functions[i]? = some decl →
      q.functions.size ≤ i → p.Inert c r decl)
    (hclasses : r.classes.size = q.classes.size) (hrecord : r.IsRecord k shape) :
    p.Recording c xs ys made (Function.update shapes k shape) (moved ∪ ds) plan' r := by
  refine h.step hstep hplan hclosures hfs (fun _ hm => by cases hm; exact hk) hds hfunctions
    ((hstep.changes.origins hclasses).trans h.origins) (fun {k'} hk' hlt => ?_)
    fun {k'} hn _ => Function.update_of_ne hn ..
  rcases hk' with hm | hle
  · cases hm
    rw [Function.update_self]
    exact hrecord
  · omega

end

end Program

end StackBackend
