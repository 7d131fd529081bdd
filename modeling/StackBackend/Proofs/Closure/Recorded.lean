import StackBackend.Proofs.Closure.RecordSteps

/-! All records of closure conversion together: they can always be added, and afterwards
everything that the analysis asks for has its place. -/

namespace StackBackend

open List

variable {old : Array FunctionDecl} {base : FunctionDecl} {d : DefnId} {f : FunctionId}
  {s : ScopeId}

namespace Pass

/-- A method that passes its parameters on. -/
def forwarder (id : FunctionId) (k : ClassId) (scope : ScopeId) (target : FunctionDecl)
    (f : FunctionId) (params : List DefnId) (args : List Expr) : FunctionDecl :=
  { Program.newFunction id target.name (.method k) scope target.returnTy params with
    typeParams := target.typeParams
    body := some (.call target.returnTy f (target.typeParams.map Ty.variable) args) }

end Pass

namespace Program

variable {p q r : Program} {c : Captures}

/-- The method takes what the function takes, and passes it on. -/
def Forwards (p q : Program) (f m : FunctionId) : Prop :=
  ∃ decl k scope receiver copies args, p.functions[f.index]? = some decl ∧
    q.functions[m.index]? = some (Pass.forwarder m k scope decl f (receiver :: copies) args) ∧
    copies.map q.defnTy? = decl.params.map p.defnTy? ∧ ∀ d ∈ copies, d.index < q.definitions.size

theorem Forwards.mono {fs : Set FunctionId} {cs : Set ClassId} {ds : Set DefnId} {m : FunctionId}
    (hf : p.Forwards q f m) (h : q.Changes fs cs ds r) (hn : m ∉ fs) : p.Forwards r f m := by
  obtain ⟨decl, k, scope, receiver, copies, args, hdecl, hm, htypes, hlt⟩ := hf
  refine ⟨decl, k, scope, receiver, copies, args, hdecl, h.function_eq hm hn, ?_, fun d hd =>
    (hlt d hd).trans_le h.defns_le⟩
  rw [← htypes]
  exact map_congr_left fun d hd => h.defnTy? (hlt d hd)

end Program

namespace Pass

open Program

variable {p q r : Program} {c : Captures} {xs : List ContextShell} {ys : List ClosureShell}
  {moved : Set DefnId} {plan plan' : ClosurePlan} {made : List ClassOrigin}
  {shapes shapes' : ClassId → RecordShape} {decl : FunctionDecl} {k : ClassId}

/-! ## Functions as values -/

structure ParamsCopied (q : Program) (old : Array FunctionDecl) (base : FunctionDecl)
    (done : List DefnId) (args : List Expr) (r : Program) : Prop where
  builds : q.Builds {⟨old.size⟩} ∅ ∅ r
  classes : r.classes = q.classes
  functions : ∃ copies, r.functions = old.push { base with params := base.params ++ copies } ∧
    copies.map r.defnTy? = done.map q.defnTy? ∧ ∀ d ∈ copies, d.index < r.definitions.size
  args : ∀ e ∈ args, ∃ ty d, e = .variable ty d ∧ q.definitions.size ≤ d.index ∧
    r.IsParameter d base.scope

theorem copyParam_ensures {done : List DefnId} {args : List Expr}
    (h : ParamsCopied q old base done args r) (hd : d.index < q.definitions.size) :
    (copyParam ⟨old.size⟩ d).Ensures r (fun e r' => ParamsCopied q old base (done ++ [d]) (args ++ [e]) r') := by
  obtain ⟨copies, hfunctions, htypes, hlt⟩ := h.functions
  obtain ⟨defn, hdefn⟩ := exists_of_lt (hd.trans_le h.builds.changes.defns_le)
  refine .ask (defnAt_eq hdefn) (.bind (ensures_addParam h.builds.consistent
    (getElem?_added rfl hfunctions)) fun copy r' hr' => ?_)
  have hload : r'.load copy = .ok (.variable defn.ty copy) := by
    unfold Program.load
    rw [defnAt_eq hr'.entry]
    rfl
  refine ⟨_, r', gives_ask.mpr ⟨hload, rfl⟩, h.builds.step_function hr'.builds fun hlt => rfl,
    hr'.classes.trans h.classes, ⟨copies ++ [copy], ?_, ?_, ?_⟩, ?_⟩
  · rw [hr'.functions, hfunctions, ← append_assoc]
    exact modify_push
  · rw [map_append, map_append, ← htypes, map_singleton, map_singleton,
      map_congr_left fun d hd => hr'.builds.changes.defnTy? (hlt d hd),
      ← h.builds.changes.defnTy? hd, defnTy?, defnTy?, hdefn, hr'.entry]
    rfl
  · exact forall_mem_append.mpr ⟨fun d hd => (hlt d hd).trans_le hr'.builds.changes.defns_le,
      forall_mem_singleton.mpr (lt_of_get hr'.entry)⟩
  · refine forall_mem_append.mpr ⟨fun e he => ?_, forall_mem_singleton.mpr ?_⟩
    · obtain ⟨ty, d, heq, hle, hparam⟩ := h.args e he
      exact ⟨ty, d, heq, hle, hparam.mono hr'.builds.changes nofun⟩
    · refine ⟨_, copy, rfl, ?_, _, hr'.entry, rfl, rfl⟩
      rw [show copy = ⟨r.definitions.size⟩ from hr'.fresh]
      exact h.builds.changes.defns_le

theorem copyParams_ensures (hq : q.Consistent)
    (hfunctions : q.functions = old.push base) (params : List DefnId)
    (hparams : ∀ d ∈ params, d.index < q.definitions.size) :
    (params.mapM (copyParam ⟨old.size⟩)).Ensures q (ParamsCopied q old base params) := by
  refine .mono (Ensures.mapM (I := ParamsCopied q old base) params [] [] ?_ ?_) fun args r hr => hr
  · exact ⟨(Builds.refl hq).weaken, rfl, ⟨[], by rw [append_nil]; exact hfunctions, rfl, forall_mem_nil _⟩,
      forall_mem_nil _⟩
  · intro pre d post args r hsplit hr
    refine copyParam_ensures hr (hparams d ?_)
    exact mem_iff_append.mpr ⟨pre, post, hsplit⟩

structure ForwarderAdded (q : Program) (k : ClassId) (f : FunctionId) (decl : FunctionDecl)
    (r : Program) : Prop where
  builds : q.Builds ∅ {k} ∅ r
  classes : r.classes = q.classes.modify k.index fun cls =>
    { cls with methods := cls.methods ++ [⟨q.functions.size⟩] }
  method : ∃ scope receiver copies args, r.functions = q.functions.push
      (forwarder ⟨q.functions.size⟩ k scope decl f (receiver :: copies) args) ∧
    copies.map r.defnTy? = decl.params.map q.defnTy? ∧ (∀ d ∈ copies, d.index < r.definitions.size) ∧
    ∀ e ∈ args, ∃ ty d, e = .variable ty d ∧ q.definitions.size ≤ d.index ∧ r.IsParameter d scope

theorem ensures_forwarder (hq : q.Consistent) {cls : ClassDecl} (hk : q.classes[k.index]? = some cls)
    (hparams : ∀ d ∈ decl.params, d.index < q.definitions.size)
    {β : Type} {m : Pass β} {R : β → Program → Prop}
    (hm : ∀ r, ForwarderAdded q k f decl r → m.Ensures r R) :
    (do
      let method ← addMethod k decl.name decl.returnTy
      modifyFunction method fun m => { m with typeParams := decl.typeParams }
      let args ← decl.params.mapM (copyParam method)
      setBody method (.call decl.returnTy f (decl.typeParams.map Ty.variable) args)
      m).Ensures q R := by
  refine .bind (ensures_addMethod hq hk) ?_
  rintro method q1 ⟨scope, h1⟩
  obtain rfl : method = ⟨q.functions.size⟩ := h1.fresh
  have hentry := h1.entry
  refine .bind (ensures_modifyFunction (R := fun _ r => q1.Builds {⟨q.functions.size⟩} ∅ ∅ r ∧
    r.classes = q1.classes ∧ r.functions = q.functions.push
      { newFunction ⟨q.functions.size⟩ decl.name (.method k) scope decl.returnTy
          [⟨q.definitions.size⟩] with typeParams := decl.typeParams }) hentry ?_) ?_
  · refine ⟨builds_code h1.builds.consistent hentry fun _ => {}, rfl, ?_⟩
    dsimp only
    rw [h1.functions]
    exact modify_push
  rintro _ q2 ⟨hbuilds2, hclasses2, hfunctions2⟩
  have h2 : q.Builds ∅ {k} ∅ q2 := h1.builds.step_function hbuilds2 fun hlt =>
    hlt.false.elim
  refine .bind (copyParams_ensures h2.consistent hfunctions2 decl.params fun d hd =>
    (hparams d hd).trans_le h2.changes.defns_le) fun args q3 h3 => ?_
  obtain ⟨copies, hfunctions3, htypes, hlt⟩ := h3.functions
  refine .bind (ensures_setBody h3.builds.consistent (getElem?_added rfl hfunctions3)) ?_
  rintro _ r ⟨hbuilds, hdefns, hclasses, hfunctions⟩
  have h3' : q.Builds ∅ {k} ∅ q3 := h2.step_function h3.builds fun hlt =>
    hlt.false.elim
  refine hm r ⟨h3'.step_function hbuilds fun hlt => hlt.false.elim, ?_, scope, ⟨q.definitions.size⟩,
    copies, args, ?_, ?_, fun d hd => (hlt d hd).trans_le hbuilds.changes.defns_le, fun e he => ?_⟩
  · rw [hclasses, h3.classes, hclasses2, h1.classes]
  · rw [hfunctions, hfunctions3]
    exact modify_push
  · rw [map_congr_left fun d hd => hbuilds.changes.defnTy? (hlt d hd), htypes]
    exact map_congr_left fun d hd => h2.changes.defnTy? (hparams d hd)
  · obtain ⟨ty, d, heq, hle, hparam⟩ := h3.args e he
    exact ⟨ty, d, heq, h2.changes.defns_le.trans hle, hparam.mono hbuilds.changes nofun⟩

structure ValueAdded (p : Program) (c : Captures) (xs : List ContextShell) (ys : List ClosureShell)
    (made : List ClassOrigin) (shapes : ClassId → RecordShape) (moved : Set DefnId) (plan : ClosurePlan)
    (q : Program) (f : FunctionId) (plan' : ClosurePlan) (r : Program) : Prop where
  keeps : plan.Keeps plan'
  value : ∃ value, plan'.values.find? f = some value
  changes : q.Changes ∅ ∅ ∅ r
  classes : r.classes.size = q.classes.size + 1
  record : ∃ m, p.Forwards r f m ∧ p.Recording c xs ys (made ++ [.closure f])
    (Function.update shapes ⟨q.classes.size⟩ ⟨.closure f, [], [m]⟩) moved plan' r

theorem addValueClass_ensures (hp : p.Consistent) (h : p.Recording c xs ys made shapes moved plan q)
    (hf : f ∈ c.values.toList) (hdecl : p.functions[f.index]? = some decl)
    (hopen : plan.closures.find? f = none) :
    (addValueClass plan f).Ensures q (ValueAdded p c xs ys made shapes moved plan q f) := by
  have hdeclq := h.builds.changes.function_eq hdecl (by rintro ⟨closure, hc⟩; rw [hopen] at hc; cases hc)
  have hparams : ∀ d ∈ decl.params, d.index < p.definitions.size := by
    intro d hd
    obtain ⟨_, hdefn, _⟩ := (hp.function hdecl).params d hd
    exact lt_of_get hdefn
  refine .ask (functionAt_eq hdeclq) (.bind (ensures_pushClass h.consistent) ?_)
  rintro k q1 ⟨scope, hq1⟩
  obtain rfl : k = ⟨q.classes.size⟩ := hq1.fresh
  have hblank : q1.IsRecord ⟨q.classes.size⟩ ⟨.closure f, [], []⟩ :=
    ⟨_, scope, [], [], [], hq1.entry, rfl, forall_mem_nil _⟩
  obtain ⟨h1, hmade⟩ := h.addClass hq1 hblank
  obtain ⟨hnew, cls, hcls, _⟩ := id hmade
  obtain ⟨ty, hty⟩ := thisTy_ok hcls
  refine .ask hty (.bind (ensures_addPlainConstructor h1.consistent hcls) ?_)
  rintro constructor q2 ⟨rfl, new, hadded⟩
  have h2 := h1.addFunction hadded.builds hnew hadded.classes
    (hadded.records (h1.records hnew (lt_of_get hcls))) hadded.functions (.constructor hadded.body hadded.chain)
  rw [Function.update_eq_self] at h2
  obtain ⟨_, cls2, hcls2, horigin2⟩ := hmade.mono hadded.builds.changes
  have hchanges : q.Builds ∅ ∅ ∅ q2 := hq1.builds.step_class hadded.builds fun hlt => hlt.false.elim
  refine ensures_forwarder h2.consistent hcls2 (fun d hd => (hparams d hd).trans_le h2.fresh_le) ?_
  intro r hr
  obtain ⟨scope', receiver, copies, args, hfunctions, htypes, hlt, hargs⟩ := hr.method
  have hforwards : p.Inert c r
      (forwarder ⟨q2.functions.size⟩ ⟨q.classes.size⟩ scope' decl f (receiver :: copies) args) := by
    refine .forwarder rfl rfl hf fun a ha => ?_
    obtain ⟨ty, d, heq, hle, hparam⟩ := hargs a ha
    exact ⟨ty, d, heq, h2.fresh_le.trans hle, hparam⟩
  have hrecord := (h2.records hnew (lt_of_get hcls2)).addMember hr.builds.changes
    (· ++ [⟨q2.functions.size⟩]) hr.classes fun _ => ⟨_, _, rfl⟩
  rw [Function.update_self] at hrecord
  have h3 := h2.addFunction hr.builds hnew (by rw [hr.classes, Array.size_modify]) hrecord hfunctions
    hforwards
  rw [Function.update_idem] at h3
  have hctor : q2.Constructs ⟨q1.functions.size⟩ (.closure f) :=
    ⟨new, ⟨q.classes.size⟩, cls2, getElem?_added rfl hadded.functions, hadded.kind, hcls2, horigin2⟩
  refine .pure ⟨⟨id, id, RefMap.exists_find?_insert, id, id, id, id⟩, ⟨_, RefMap.find?_insert_self⟩,
    (hchanges.step_class hr.builds fun hlt => hlt.false.elim).changes, ?_, ⟨q2.functions.size⟩,
    ⟨decl, _, scope', receiver, copies, args, hdecl, getElem?_added rfl hfunctions, ?_, hlt⟩,
    h3.withPlan (h3.planned.addValue hf h1.builds.changes.functions_le (hctor.mono hr.builds.changes nofun))
      rfl⟩
  · rw [hr.classes, Array.size_modify, hadded.classes, hq1.classes, Array.size_push]
  · rw [htypes]
    exact map_congr_left fun d hd => h2.builds.changes.defnTy? (hparams d hd)

end Pass

namespace Program

variable {p q : Program} {u : Usage} {needed : RefMap .functions (RefSet .scopes)} {c : Captures}
  {plan : ClosurePlan}

/-! ## What the analysis asks for -/

section

variable (hc : p.CapturesOf u needed c)
include hc

theorem CapturesOf.parent (hf : f ∈ c.closures.toList) :
    ∃ parent, c.parents.find? f = some parent ∧ p.enclosingFunction f = .ok (some parent) := by
  obtain ⟨parent, hparent⟩ := hc.saturated.nested f hf
  rw [hc.parents]
  exact ⟨parent, hparent, (hc.usage.parents.mp hparent).2⟩

theorem CapturesOf.closure_lt (hf : f ∈ c.closures.toList) : f.index < p.functions.size := by
  obtain ⟨parent, hparent⟩ := hc.saturated.nested f hf
  exact parent_lt_size hc.usage hparent

theorem CapturesOf.value_lt (hf : f ∈ c.values.toList) : f.index < p.functions.size := by
  obtain ⟨_, decl, hdecl, _⟩ := hc.topLevel f hf
  exact lt_of_get hdecl

theorem CapturesOf.key_owner (hs : s ∈ c.captured.keys) :
    ∃ owner, p.scopeFunction s = .ok (some owner) := by
  obtain ⟨f, owner, hreach⟩ := isCaptured_iff_reaches.mp ((hc.keys s).mp hs)
  exact ⟨owner, hreach.scopeFunction hc.usage⟩

theorem CapturesOf.holds_key {i : CapturedItem} (hi : c.captured.Holds s i) : s ∈ c.captured.keys :=
  (hc.keys s).mpr ⟨i, (hc.holds s i).mp hi⟩

theorem CapturesOf.variable_lt (hd : c.captured.Holds s (.variable d)) :
    d.index < p.definitions.size := by
  cases (hc.holds s _).mp hd with
  | «variable» _ hvar _ _ =>
    obtain ⟨defn, hdefn, _⟩ := hvar
    exact lt_of_get hdefn

theorem CapturesOf.closure_held (hf : c.captured.Holds s (.closure f)) : f ∈ c.closures.toList := by
  cases (hc.holds s _).mp hf with
  | closure _ hclosure _ _ _ => exact hclosure

theorem CapturesOf.needed_key (hs : s ∈ (c.needed.find? f).getD []) : s ∈ c.captured.keys := by
  cases hss : c.needed.find? f with
  | none => rw [hss] at hs; cases hs
  | some ss =>
    rw [hss] at hs
    obtain ⟨_, _, hneeds⟩ := hc.contexts hss
    obtain ⟨g, owner, hreach, _⟩ := hc.saturated.neededBy.source ((hneeds s).mp hs)
    exact (hc.keys s).mpr (isCaptured_iff_reaches.mpr ⟨g, owner, hreach⟩)

theorem CapturesOf.needed_nodup : ((c.needed.find? f).getD []).Nodup := by
  cases hss : c.needed.find? f with
  | none => exact nodup_nil
  | some ss => exact (hc.contexts hss).2.1

theorem CapturesOf.not_value (hf : f ∈ c.closures.toList) : f ∉ c.values.toList := by
  intro hvalue
  obtain ⟨parent, hparent⟩ := hc.saturated.nested f hf
  cases hparent.symm.trans (hc.topLevel f hvalue).1

theorem CapturesOf.origins_nodup : c.origins.Nodup := by
  have hclosures : (c.closures.toList ++ c.values.toList).Nodup :=
    nodup_append.mpr ⟨RefSet.nodup _, RefSet.nodup _, fun f hf g hg heq => hc.not_value hf (heq ▸ hg)⟩
  refine nodup_append.mpr ⟨hc.sorted.nodup_keys.map fun _ _ h => ClassOrigin.context.inj h,
    hclosures.map fun _ _ h => ClassOrigin.closure.inj h, fun o ho o' ho' heq => ?_⟩
  obtain ⟨s, _, rfl⟩ := mem_map.mp ho
  obtain ⟨f, _, rfl⟩ := mem_map.mp ho'
  cases heq

end

/-! ## All records -/

/-- A class that conversion made, as it is in the end. -/
inductive RecordOf (p : Program) (c : Captures) (q : Program) (k : ClassId) : Prop where
  | context {s : ScopeId} (captured : s ∈ c.captured.keys)
    (record : q.IsRecord k ⟨.context s, p.contextNames c s, []⟩) : RecordOf p c q k
  | closure {f : FunctionId} (isClosure : f ∈ c.closures.toList)
    (record : q.IsRecord k ⟨.closure f, c.closureNames f, [f]⟩) : RecordOf p c q k
  | value {f m : FunctionId} (isValue : f ∈ c.values.toList)
    (record : q.IsRecord k ⟨.closure f, [], [m]⟩) (forwards : p.Forwards q f m) : RecordOf p c q k

/-- A captured variable that is no parameter. -/
def Moves (p : Program) (c : Captures) (d : DefnId) : Prop :=
  ¬ p.IsParam d ∧ ∃ s, c.captured.Holds s (.variable d)

structure Recorded (p : Program) (c : Captures) (plan : ClosurePlan) (q : Program) : Prop where
  builds : p.Builds {f | f ∈ c.closures.toList} ∅ {d | p.Moves c d} q
  planned : p.Planned c plan q
  moved : ∀ {d}, p.Moves c d → p.Moved c q d
  functions : ∀ {i : Nat} {decl : FunctionDecl}, q.functions[i]? = some decl →
    p.functions.size ≤ i → p.Inert c q decl
  origins : q.origins = p.origins ++ c.origins
  records : ∀ o ∈ c.origins, ∃ k, p.MadeFor q k o ∧ p.RecordOf c q k
  contexts : ∀ s ∈ c.captured.keys, ∃ context, plan.contexts.find? s = some context
  closures : ∀ f ∈ c.closures.toList, ∃ closure, plan.closures.find? f = some closure
  values : ∀ f ∈ c.values.toList, ∃ value, plan.values.find? f = some value
  paramFields : ∀ {s d}, c.captured.Holds s (.variable d) → p.IsParam d →
    ∃ k, plan.paramFields.find? d = some k
  caught : ∀ {d}, p.Moves c d → d ∈ c.caught.toList → ∃ temp, plan.caught.find? d = some temp

theorem MadeFor.origin {k : ClassId} {o : ClassOrigin} (h : p.MadeFor q k o)
    (horigins : q.origins = p.origins ++ c.origins) :
    c.origins[k.index - p.classes.size]? = some o := by
  obtain ⟨hle, cls, hcls, rfl⟩ := h
  have hlength : p.origins.length = p.classes.size := by simp [origins]
  have hget : q.origins[k.index]? = some cls.origin := by
    rw [origins, getElem?_map, Array.getElem?_toList, hcls]
    rfl
  rwa [horigins, getElem?_append_right (hlength ▸ hle), hlength] at hget

/-- There are no other classes than the records that were asked for. -/
theorem Recorded.recordOf (hc : p.CapturesOf u needed c) (h : p.Recorded c plan q) {i : Nat}
    (hi : p.classes.size ≤ i) (hlt : i < q.classes.size) : p.RecordOf c q ⟨i⟩ := by
  obtain ⟨cls, hcls⟩ := exists_of_lt hlt
  have hat := MadeFor.origin (k := ⟨i⟩) ⟨hi, cls, hcls, rfl⟩ h.origins
  obtain ⟨k, hk, hrecord⟩ := h.records _ (mem_of_getElem? hat)
  have heq := (getElem?_inj (List.getElem?_eq_some_iff.mp hat).1 hc.origins_nodup).mp
    (hat.trans (hk.origin h.origins).symm)
  have hle := hk.1
  obtain rfl : k = ⟨i⟩ := Ref.ext_index (by dsimp only at heq ⊢; omega)
  exact hrecord

theorem MadeFor.nodup {α : Type} {xs : List α} {cls : α → ClassId} {o : α → ClassOrigin}
    (hmade : ∀ x ∈ xs, p.MadeFor q (cls x) (o x)) (hnodup : (xs.map o).Nodup) : (xs.map cls).Nodup := by
  refine Nodup.map_on (fun x hx y hy heq => inj_on_of_nodup_map hnodup hx hy ?_) (.of_map o hnodup)
  obtain ⟨_, cls1, hcls1, horigin1⟩ := hmade x hx
  obtain ⟨_, cls2, hcls2, horigin2⟩ := hmade y hy
  rw [heq] at hcls1
  cases hcls1.symm.trans hcls2
  exact horigin1.symm.trans horigin2

theorem recording_start (hp : p.Consistent) :
    p.Recording c [] [] [] (fun _ => ⟨.declared, [], []⟩) ∅ (.ofCaptures c) p where
  builds := (Builds.refl hp).weaken
  planned := planned_start
  moved _ hd := absurd hd (Set.notMem_empty _)
  functions hdecl hi := absurd hi (not_new rfl hdecl)
  origins := (append_nil _).symm
  records hi hlt := absurd hi hlt.not_ge
  contextShells := forall_mem_nil _
  closureShells := forall_mem_nil _

end Program

namespace Pass

open Program

variable {p q r : Program} {u : Usage} {needed : RefMap .functions (RefSet .scopes)} {c : Captures}
  {xs : List ContextShell} {ys : List ClosureShell} {moved : Set DefnId} {plan plan' : ClosurePlan}
  {made : List ClassOrigin} {shapes shapes' : ClassId → RecordShape}

/-- Classes have got the shapes they should have, and no others have changed. -/
structure ShapesFilled {α : Type} (cls : α → ClassId) (final : α → RecordShape)
    (shapes : ClassId → RecordShape) (done : List α) (shapes' : ClassId → RecordShape) : Prop where
  filled : ∀ x ∈ done, shapes' (cls x) = final x
  others : ∀ {k}, k ∉ done.map cls → shapes' k = shapes k

theorem ShapesFilled.step {α : Type} {cls : α → ClassId} {final : α → RecordShape} {done : List α} {x : α}
    (h : ShapesFilled cls final shapes done shapes') (hx : cls x ∉ done.map cls) :
    ShapesFilled cls final shapes (done ++ [x]) (Function.update shapes' (cls x) (final x)) where
  filled := by
    refine forall_mem_append.mpr ⟨fun y hy => ?_, forall_mem_singleton.mpr (Function.update_self ..)⟩
    rw [Function.update_of_ne fun heq => hx (by rw [← heq]; exact mem_map_of_mem hy)]
    exact h.filled y hy
  others hk := by
    rw [map_append, mem_append, not_or, map_singleton, mem_singleton] at hk
    rw [Function.update_of_ne hk.2]
    exact h.others hk.1

def contextShape (p : Program) (c : Captures) (x : ContextShell) : RecordShape :=
  ⟨.context x.scope, p.contextNames c x.scope, []⟩

def closureShape (c : Captures) (y : ClosureShell) : RecordShape :=
  ⟨.closure y.function, c.closureNames y.function, [y.function]⟩

def ContextsFilled (p : Program) (c : Captures) (xs : List ContextShell) (ys : List ClosureShell)
    (made : List ClassOrigin) (shapes : ClassId → RecordShape) (filled : List ContextShell)
    (plan' : ClosurePlan) (r : Program) : Prop :=
  ∃ moved shapes', p.Recording c xs ys made shapes' moved plan' r ∧
    ShapesFilled ContextShell.cls (contextShape p c) shapes filled shapes' ∧ plan'.closures = .empty ∧
    plan'.contextFields = [] ∧ ∀ x ∈ filled, FilledContext p c x.scope plan' moved

structure ClosuresFilled (p : Program) (c : Captures) (xs : List ContextShell)
    (ys : List ClosureShell) (made : List ClassOrigin) (shapes : ClassId → RecordShape)
    (moved : Set DefnId) (plan : ClosurePlan) (filled : List ClosureShell)
    (plan' : ClosurePlan) (r : Program) : Prop where
  recording : ∃ shapes', p.Recording c xs ys made shapes' moved plan' r ∧
    ShapesFilled ClosureShell.cls (closureShape c) shapes filled shapes'
  keeps : plan.Keeps plan'
  closures : ∀ shell ∈ filled, ∃ closure, plan'.closures.find? shell.function = some closure
  others : ∀ {g}, g ∉ filled.map ClosureShell.function → plan'.closures.find? g = none ∧
    ∀ s, plan'.contextField? g s = none

structure ValuesAdded (p : Program) (c : Captures) (xs : List ContextShell) (ys : List ClosureShell)
    (made : List ClassOrigin) (shapes : ClassId → RecordShape) (moved : Set DefnId) (plan : ClosurePlan)
    (q : Program) (done : List FunctionId) (plan' : ClosurePlan) (r : Program) : Prop where
  keeps : plan.Keeps plan'
  values : ∀ f ∈ done, ∃ value, plan'.values.find? f = some value
  classes : q.classes.size ≤ r.classes.size
  recording : ∃ shapes', p.Recording c xs ys (made ++ done.map .closure) shapes' moved plan' r ∧
    (∀ {k : ClassId}, k.index < q.classes.size → shapes' k = shapes k) ∧
    ∀ f ∈ done, ∃ k m, p.MadeFor r k (.closure f) ∧ shapes' k = ⟨.closure f, [], [m]⟩ ∧ p.Forwards r f m

/-- The classes that are there have nothing yet. -/
def Blank (shapes : ClassId → RecordShape) : Prop := ∀ k, shapes k = ⟨(shapes k).origin, [], []⟩

theorem Blank.update {k : ClassId} {o : ClassOrigin} (h : Blank shapes) :
    Blank (Function.update shapes k ⟨o, [], []⟩) := by
  intro k'
  by_cases hk : k' = k
  · rw [hk, Function.update_self]
  · rw [Function.update_of_ne hk]
    exact h k'

section

variable (hp : p.Consistent) (hc : p.CapturesOf u needed c)
include hp hc

theorem addValueClasses_ensures (h : p.Recording c xs ys made shapes moved plan q) :
    (c.values.toList.foldlM addValueClass plan).Ensures q
      (ValuesAdded p c xs ys made shapes moved plan q c.values.toList) := by
  refine Ensures.foldlM (I := ValuesAdded p c xs ys made shapes moved plan q) _ []
    ⟨.refl plan, forall_mem_nil _, Nat.le_refl _, shapes, by rwa [map_nil, append_nil], fun _ => rfl,
      forall_mem_nil _⟩ ?_
  rintro pre f post plan1 q1 hsplit h1
  have hf : f ∈ c.values.toList := mem_iff_append.mpr ⟨pre, post, hsplit⟩
  obtain ⟨shapes1, hrec1, hsame1, hpre⟩ := h1.recording
  obtain ⟨decl, hdecl⟩ := exists_of_lt (hc.value_lt hf)
  refine (addValueClass_ensures hp hrec1 hf hdecl ?_).mono fun plan2 q2 h2 => ?_
  · refine Option.eq_none_iff_forall_ne_some.mpr fun closure hclosure => ?_
    exact hc.not_value (hrec1.planned.closures hclosure).isClosure hf
  obtain ⟨m, hforwards, hrec2⟩ := h2.record
  have hlast := h2.classes
  have hle := h1.classes
  refine ⟨h1.keeps.trans h2.keeps, forall_mem_append.mpr ⟨fun g hg => h2.keeps.values (h1.values g hg),
    forall_mem_singleton.mpr h2.value⟩, by omega, _, by rwa [map_append, ← append_assoc], fun {k} hk => ?_,
    forall_mem_append.mpr ⟨fun g hg => ?_, forall_mem_singleton.mpr
      ⟨⟨q1.classes.size⟩, m, ?_, Function.update_self .., hforwards⟩⟩⟩
  · rw [Function.update_of_ne fun heq => by rw [heq] at hk; dsimp only at hk; omega]
    exact hsame1 hk
  · obtain ⟨k, m', hmade, hshape, hforwards'⟩ := hpre g hg
    refine ⟨k, m', hmade.mono h2.changes, ?_, hforwards'.mono h2.changes nofun⟩
    obtain ⟨_, _, hcls, _⟩ := hmade
    rw [Function.update_of_ne fun heq => by rw [heq] at hcls; exact absurd (lt_of_get hcls) (Nat.lt_irrefl _)]
    exact hshape
  · have hnew := hrec1.builds.changes.classes_le
    obtain ⟨_, _, _, _, _, hcls, _⟩ := hrec2.records (k := ⟨q1.classes.size⟩) hnew
      (by dsimp only; omega)
    rw [Function.update_self] at hcls
    exact ⟨hnew, _, hcls, rfl⟩

theorem contextShells_ensures : (c.captured.keys.foldlM addContextShell []).Ensures p fun xs r =>
    xs.map ContextShell.scope = c.captured.keys ∧ ∃ shapes, Blank shapes ∧
      p.Recording c xs [] (c.captured.keys.map .context) shapes ∅ (.ofCaptures c) r := by
  refine Ensures.foldlM (I := fun done xs r => xs.map ContextShell.scope = done ∧ ∃ shapes, Blank shapes ∧
    p.Recording c xs [] (done.map .context) shapes ∅ (.ofCaptures c) r) c.captured.keys []
    ⟨rfl, _, fun _ => rfl, recording_start hp⟩ ?_
  rintro pre s post xs q hsplit ⟨hxs, shapes, hblank, h⟩
  have hs : s ∈ c.captured.keys := mem_iff_append.mpr ⟨pre, post, hsplit⟩
  obtain ⟨owner, howner⟩ := hc.key_owner hs
  refine (addContextShell_ensures h hp rfl hs howner).mono ?_
  rintro _ r ⟨shell, rfl, hshell, hr⟩
  exact ⟨by rw [map_append, hxs, map_singleton, hshell], _, hblank.update, by rwa [map_append]⟩

theorem closureShells_ensures (h : p.Recording c xs [] made shapes ∅ (.ofCaptures c) q)
    (hblank : Blank shapes) :
    (c.closures.toList.mapM (addClosureShell c)).Ensures q fun ys r =>
      ys.map ClosureShell.function = c.closures.toList ∧ ∃ shapes, Blank shapes ∧
        p.Recording c xs ys (made ++ c.closures.toList.map .closure) shapes ∅ (.ofCaptures c) r := by
  refine Ensures.mapM (I := fun done ys r => ys.map ClosureShell.function = done ∧ ∃ shapes, Blank shapes ∧
    p.Recording c xs ys (made ++ done.map .closure) shapes ∅ (.ofCaptures c) r) c.closures.toList [] []
    ⟨rfl, shapes, hblank, by rwa [map_nil, append_nil]⟩ ?_
  rintro pre f post ys q hsplit ⟨hys, shapes, hblank, h⟩
  have hf : f ∈ c.closures.toList := mem_iff_append.mpr ⟨pre, post, hsplit⟩
  obtain ⟨parent, hparent, henclosing⟩ := hc.parent hf
  have hflt := hc.closure_lt hf
  obtain ⟨_, o, _, _, _, henclosing', hlt⟩ := enclosingFunction_ok hp hflt
  cases henclosing.symm.trans henclosing'
  have hparentLt : parent.index < p.functions.size := (hlt parent rfl).trans hflt
  refine (addClosureShell_ensures h hp rfl hf hparent hflt hparentLt).mono ?_
  rintro shell r ⟨hshell, hr⟩
  exact ⟨by rw [map_append, hys, map_singleton, hshell], _, hblank.update,
    by rwa [map_append, ← append_assoc]⟩

omit hp in
theorem fillContexts_ensures (h : p.Recording c xs ys made shapes ∅ (.ofCaptures c) q)
    (hxs : xs.map ContextShell.scope = c.captured.keys)
    (hys : ys.map ClosureShell.function = c.closures.toList) (hblank : Blank shapes) :
    (xs.foldlM (fillContext ys) (.ofCaptures c)).Ensures q (ContextsFilled p c xs ys made shapes xs) := by
  refine Ensures.foldlM (I := ContextsFilled p c xs ys made shapes) xs []
    ⟨∅, shapes, h, ⟨forall_mem_nil _, fun _ => rfl⟩, rfl, rfl, forall_mem_nil _⟩ ?_
  rintro pre x post plan1 q1 hsplit ⟨moved1, shapes1, h1, hfilled1, hclosures1, hfields1, hdone1⟩
  have hx : x ∈ xs := mem_iff_append.mpr ⟨pre, post, hsplit⟩
  have hnodup : (xs.map ContextShell.cls).Nodup := by
    refine MadeFor.nodup (o := ClassOrigin.context ∘ ContextShell.scope) (fun x hx => (h.contextShells x hx).2.2) ?_
    rw [← map_map, hxs]
    exact hc.sorted.nodup_keys.map fun _ _ h => ClassOrigin.context.inj h
  have hcls := notMem_before hnodup hsplit
  refine (fillContext_ensures h1 hx hys hc.variable_lt
    fun hf => ⟨hc.closure_held hf, hc.closure_lt (hc.closure_held hf)⟩).mono ?_
  rintro plan2 q2 ⟨moved2, hmoved2, h2, _, hkeeps2, hclosures2, hfields2, hfilled2⟩
  have hshape : growing shapes1 x.cls (p.contextNames c x.scope) =
      Function.update shapes1 x.cls (contextShape p c x) := by
    rw [growing, hfilled1.others hcls, hblank x.cls, h.origin_eq (h.contextShells x hx).2.2]
    rfl
  rw [hshape] at h2
  exact ⟨moved2, _, h2, hfilled1.step hcls, hclosures2.trans hclosures1, hfields2.trans hfields1,
    forall_mem_append.mpr ⟨fun y hy => (hdone1 y hy).mono hkeeps2 hmoved2, forall_mem_singleton.mpr hfilled2⟩⟩

theorem fillClosures_ensures (h : p.Recording c xs ys made shapes moved plan q)
    (hys : ys.map ClosureShell.function = c.closures.toList)
    (hblank : ∀ y ∈ ys, shapes y.cls = ⟨.closure y.function, [], []⟩)
    (hclosures : plan.closures = .empty) (hfields : plan.contextFields = [])
    (hcontexts : ∀ s ∈ c.captured.keys, ∃ context, plan.contexts.find? s = some context)
    (hclosureFields : ∀ {s f}, c.captured.Holds s (.closure f) →
      ∃ k, plan.closureFields.find? f = some k) :
    (ys.foldlM fillClosure plan).Ensures q (ClosuresFilled p c xs ys made shapes moved plan ys) := by
  refine Ensures.foldlM (I := ClosuresFilled p c xs ys made shapes moved plan) ys [] ?_ ?_
  · refine ⟨⟨shapes, h, forall_mem_nil _, fun _ => rfl⟩, .refl plan, forall_mem_nil _,
      fun _ => ⟨by rw [hclosures]; rfl, fun s => ?_⟩⟩
    rw [ClosurePlan.contextField?, hfields]
    rfl
  rintro pre shell post plan1 q1 hsplit h1
  have hshell : shell ∈ ys := mem_iff_append.mpr ⟨pre, post, hsplit⟩
  have hnodup : (ys.map ClosureShell.function).Nodup := by
    rw [hys]
    exact RefSet.nodup _
  have hfresh := notMem_before hnodup hsplit
  have hcls : shell.cls ∉ pre.map ClosureShell.cls := by
    refine notMem_before (MadeFor.nodup (o := ClassOrigin.closure ∘ ClosureShell.function)
      (fun y hy => (h.closureShells y hy).2.1) ?_) hsplit
    rw [← map_map]
    exact hnodup.map fun _ _ h => ClassOrigin.closure.inj h
  obtain ⟨hnew, hnone⟩ := h1.others hfresh
  obtain ⟨shapes1, hrec1, hfilled1⟩ := h1.recording
  have hlt := hc.closure_lt (hrec1.closureShells shell hshell).1
  refine (fillClosure_ensures hp hrec1 hshell hlt ((hfilled1.others hcls).trans (hblank shell hshell)) hnew
    hnone hc.needed_nodup (fun s hs => h1.keeps.contexts (hcontexts s (hc.needed_key hs)))
    fun hs => h1.keeps.closureFields (hclosureFields hs)).mono fun plan2 q2 h2 => ?_
  refine ⟨⟨_, h2.recording, hfilled1.step hcls⟩, h1.keeps.trans h2.keeps, ?_, fun {g} hg => ?_⟩
  · exact forall_mem_append.mpr ⟨fun y hy => h2.keeps.closures (h1.closures y hy),
      forall_mem_singleton.mpr h2.closure⟩
  · rw [map_append, mem_append, not_or, map_singleton, mem_singleton] at hg
    obtain ⟨hclosure, hfield⟩ := h1.others hg.1
    exact ⟨(h2.otherClosures hg.2).trans hclosure, fun s => (h2.otherFields hg.2).trans (hfield s)⟩

/-- The records can be added, whatever was captured. -/
theorem addRecords_ensures : (addRecords c).Ensures p (p.Recorded c) := by
  refine .bind (contextShells_ensures hp hc) ?_
  rintro xs q1 ⟨hxs, shapes1, hblank1, h1⟩
  refine .bind (closureShells_ensures hp hc h1 hblank1) ?_
  rintro ys q2 ⟨hys, shapes2, hblank2, h2⟩
  refine .bind (fillContexts_ensures hc h2 hxs hys hblank2) ?_
  rintro plan3 q3 ⟨moved, shapes3, h3, hshapes3, hclosures3, hfields3, hfilled⟩
  have hkeys : ∀ s ∈ c.captured.keys, FilledContext p c s plan3 moved := by
    intro s hs
    rw [← hxs] at hs
    obtain ⟨shell, hshell, rfl⟩ := mem_map.mp hs
    exact hfilled shell hshell
  -- a class for a closure is none for a context
  have hapart : ∀ x ∈ xs, ∀ y ∈ ys, x.cls ≠ y.cls := by
    intro x hx y hy heq
    have horigin := h2.origin_eq (h2.contextShells x hx).2.2
    rw [heq, h2.origin_eq (h2.closureShells y hy).2.1] at horigin
    cases horigin
  refine .bind (fillClosures_ensures hp hc h3 hys (fun y hy => ?_) hclosures3 hfields3
    (fun s hs => (hkeys s hs).context) fun hf => (hkeys _ (hc.holds_key hf)).closures hf) ?_
  · rw [hshapes3.others, hblank2 y.cls, h2.origin_eq (h2.closureShells y hy).2.1]
    intro hm
    obtain ⟨x, hx, heq⟩ := mem_map.mp hm
    exact hapart x hx y hy heq
  intro plan4 q4 h4
  obtain ⟨shapes4, hrec4, hshapes4⟩ := h4.recording
  refine (addValueClasses_ensures hp hc hrec4).mono ?_
  intro plan r h5
  obtain ⟨shapes5, h, hshapes5, hvalues5⟩ := h5.recording
  have hkeeps := h4.keeps.trans h5.keeps
  have hclosures : ∀ f ∈ c.closures.toList, ∃ closure, plan.closures.find? f = some closure := by
    intro f hf
    rw [← hys] at hf
    obtain ⟨shell, hshell, rfl⟩ := mem_map.mp hf
    exact h5.keeps.closures (h4.closures shell hshell)
  have hstored : ∀ {s d}, c.captured.Holds s (.variable d) → StoredVariable p c d plan moved :=
    fun hd => ((hkeys _ (hc.holds_key hd)).stored hd).mono hkeeps subset_rfl
  have hmoved : ∀ {d}, p.Moves c d → d ∈ moved := by
    rintro d ⟨hparam, s, hd⟩
    exact (hstored hd).elim (fun hd => absurd hd.1 hparam) fun hd => hd.1
  have hrecord : ∀ {k o shape}, p.MadeFor q4 k o → shapes4 k = shape → r.IsRecord k shape := by
    rintro k o shape ⟨hnew, cls, hcls, _⟩ rfl
    rw [← hshapes5 (lt_of_get hcls)]
    exact h.records hnew ((lt_of_get hcls).trans_le h5.classes)
  refine ⟨h.builds.mono ?_ subset_rfl ?_, h.planned, fun hd => h.moved _ (hmoved hd),
    h.functions, ?_, fun o ho => ?_, fun s hs => hkeeps.contexts (hkeys s hs).context, hclosures, h5.values,
    fun hd hparam => ?_, ?_⟩
  · rintro f ⟨closure, hclosure⟩
    exact (h.planned.closures hclosure).isClosure
  · intro d hd
    obtain ⟨hparam, _, s, hheld, _⟩ := h.moved d hd
    exact ⟨hparam, s, hheld⟩
  · rw [h.origins, Captures.origins, map_append, append_assoc]
  · rcases mem_append.mp ho with ho | ho
    · obtain ⟨s, hs, rfl⟩ := mem_map.mp ho
      obtain ⟨x, hx, rfl⟩ := mem_map.mp (hxs ▸ hs)
      refine ⟨x.cls, (h.contextShells x hx).2.2, .context hs (hrecord (hrec4.contextShells x hx).2.2 ?_)⟩
      rw [hshapes4.others, hshapes3.filled x hx]
      · rfl
      · intro hm
        obtain ⟨y, hy, heq⟩ := mem_map.mp hm
        exact hapart x hx y hy heq.symm
    · obtain ⟨f, hf, rfl⟩ := mem_map.mp ho
      rcases mem_append.mp hf with hf | hf
      · obtain ⟨y, hy, rfl⟩ := mem_map.mp (hys ▸ hf)
        exact ⟨y.cls, (h.closureShells y hy).2.1, .closure hf (hrecord (hrec4.closureShells y hy).2.1
          (hshapes4.filled y hy))⟩
      · obtain ⟨k, m, hmade, hshape, hforwards⟩ := hvalues5 f hf
        obtain ⟨hnew, cls, hcls, _⟩ := id hmade
        exact ⟨k, hmade, .value hf (hshape ▸ h.records hnew (lt_of_get hcls)) hforwards⟩
  · rcases hstored hd with hk | ⟨hd, _⟩
    · exact hk.2
    · exact absurd hparam (h.moved _ hd).1
  · rintro d ⟨hparam, s, hd⟩
    exact (hstored hd).elim (fun hd => absurd hd.1 hparam) fun hd => hd.2

end

end Pass

end StackBackend
