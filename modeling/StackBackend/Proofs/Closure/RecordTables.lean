import StackBackend.Proofs.Closure.Converted
import StackBackend.Proofs.Layout.Embedding
import StackBackend.Proofs.SynthesizedMembers

/-! Records and the tables of their classes. A record inherits the tables of the root, so its
fields need names that differ from each other and from those of the root, and its method has
to fit where the root has one with its name. Then records can be flattened, and the classes
that were there before have the tables they had. -/

namespace StackBackend

open Checked List
open Option (map_some map_eq_some_iff)

variable {layout : ClassLayout} {method : FunctionId} {params : List DefnId} {args : List Ty}
  {cls root : ClassDecl} {new f : FunctionDecl} {receiver : DefnId} {origin : ClassOrigin}
  {names : List (Option String)} {methods : List FunctionId} {shape : RecordShape} {c : Captures}
  {plan : ClosurePlan}

variable {p q r : Program} {k : ClassId}

/-! ## Fields and methods that can be added -/

namespace Program

theorem fieldNamed?_eq_none {name : String} (slots : List FieldSlot)
    (hknown : none ∉ slots.map p.fieldName?) (hnew : some name ∉ slots.map p.fieldName?) :
    p.fieldNamed? name slots = .ok none := by
  induction slots with
  | nil => rfl
  | cons slot rest ih =>
    rw [map_cons, mem_cons, not_or] at hknown hnew
    obtain ⟨defnName, hslot⟩ := Option.ne_none_iff_exists'.mp (Ne.symm hknown.1)
    obtain ⟨defn, hdefn, rfl⟩ := map_eq_some_iff.mp hslot
    refine bind_eq_ok.mpr ⟨defn, defnAt_eq hdefn, ?_⟩
    rw [if_neg fun heq : defn.name = name => hnew.1 (heq ▸ hslot.symm)]
    exact ih hknown.2 hnew.2

theorem fieldName?_mk {d : DefnId} {storage : Storage} :
    p.fieldName? ⟨d, storage⟩ = p.defnName? d := rfl

theorem addFieldSlots_of_names {owner : String} (ds : List DefnId) :
    ∀ {layout : ClassLayout}, none ∉ p.fieldNames layout → none ∉ ds.map p.defnName? →
      (ds.map p.defnName?).Nodup → (∀ name ∈ ds.map p.defnName?, name ∉ p.fieldNames layout) →
      ∃ layout', ds.foldlM (p.addFieldSlot k owner) layout = .ok layout' := by
  induction ds with
  | nil => intro layout _ _ _ _; exact ⟨layout, rfl⟩
  | cons d rest ih =>
    intro layout hnamed hknown hnodup hnew
    rw [map_cons, mem_cons, not_or] at hknown
    rw [map_cons, nodup_cons] at hnodup
    obtain ⟨hd, hrest⟩ := forall_mem_cons.mp (map_cons ▸ hnew)
    obtain ⟨name, hname⟩ := Option.ne_none_iff_exists'.mp (Ne.symm hknown.1)
    obtain ⟨defn, hdefn, rfl⟩ := map_eq_some_iff.mp hname
    rw [hname] at hd
    have hfirst : p.addFieldSlot k owner layout d =
        .ok { layout with fields := layout.fields ++ [⟨d, defn.ty.storage.getD .pointer⟩] } :=
      bind_eq_ok.mpr ⟨defn, defnAt_eq hdefn, bind_eq_ok.mpr
        ⟨none, fieldNamed?_eq_none _ hnamed hd, rfl⟩⟩
    have hnames : p.fieldNames { layout with
        fields := layout.fields ++ [⟨d, defn.ty.storage.getD .pointer⟩] } =
          p.fieldNames layout ++ [p.defnName? d] := by
      rw [fieldNames, fieldNames, map_append, map_singleton, fieldName?_mk]
    have hnamed' : none ∉ p.fieldNames { layout with
        fields := layout.fields ++ [⟨d, defn.ty.storage.getD .pointer⟩] } := by
      rw [hnames, mem_append, mem_singleton, not_or]
      exact ⟨hnamed, hknown.1⟩
    obtain ⟨layout', hlayout'⟩ := ih hnamed' hknown.2 hnodup.2 fun name hm => by
      rw [hnames, mem_append, mem_singleton, not_or]
      exact ⟨hrest name hm, fun heq => hnodup.1 (heq ▸ hm)⟩
    exact ⟨layout', bind_eq_ok.mpr ⟨_, hfirst, hlayout'⟩⟩

theorem methodNamed?_answers (name : String) (slots : List MethodSlot)
    (hknown : ∀ slot ∈ slots, ∃ decl, p.functions[slot.function.index]? = some decl) :
    ∃ found, p.methodNamed? name slots = .ok found := by
  induction slots with
  | nil => exact ⟨none, rfl⟩
  | cons slot rest ih =>
    obtain ⟨⟨decl, hdecl⟩, hrest⟩ := forall_mem_cons.mp hknown
    by_cases hname : decl.name = name
    · exact ⟨some 0, bind_eq_ok.mpr ⟨decl, functionAt_eq hdecl, by rw [if_pos hname]; rfl⟩⟩
    · obtain ⟨found, hfound⟩ := ih hrest
      refine ⟨found.map (· + 1), bind_eq_ok.mpr ⟨decl, functionAt_eq hdecl, ?_⟩⟩
      rw [if_neg hname]
      exact bind_eq_ok.mpr ⟨found, hfound, rfl⟩

theorem addMethodSlot_of_compatible {decl : FunctionDecl}
    (hdecl : p.functions[method.index]? = some decl)
    (hknown : ∀ slot ∈ layout.methods, ∃ decl, p.functions[slot.function.index]? = some decl)
    (hcompatible : ∀ slot ∈ layout.methods, p.methodName? slot = some decl.name →
      p.isCompatibleOverride k slot.function method = .ok true) :
    ∃ layout', p.addMethodSlot k layout method = .ok layout' := by
  obtain ⟨found, hfound⟩ := methodNamed?_answers decl.name _ hknown
  rcases methodNamed?_cases _ hfound with ⟨rfl, _⟩ | ⟨i, slot, rfl, hslot, hname⟩
  · exact ⟨_, bind_eq_ok.mpr ⟨decl, functionAt_eq hdecl,
      bind_eq_ok.mpr ⟨none, hfound, rfl⟩⟩⟩
  · refine ⟨{ layout with methods := layout.methods.set i ⟨method, decl.returnTy.storage⟩ },
      bind_eq_ok.mpr ⟨decl, functionAt_eq hdecl, bind_eq_ok.mpr ⟨some i, hfound, ?_⟩⟩⟩
    dsimp only
    rw [hslot]
    split
    · rfl
    · exact bind_eq_ok.mpr ⟨true, hcompatible slot (mem_of_getElem? hslot) hname, rfl⟩

end Program

/-! ## Names of contexts in closures -/

theorem contextFieldName_inj {i j : Nat} (h : contextFieldName i = contextFieldName j) : i = j := by
  have hempty (n : Nat) : Nat.toDigits 10 n ≠ [] := Nat.toDigits_ne_nil
  have hlist := congrArg String.toList h
  unfold contextFieldName at hlist
  by_cases hi : i = 0 <;> by_cases hj : j = 0
  · rw [hi, hj]
  · rw [if_pos hi, if_neg hj] at hlist
    simp [hempty] at hlist
  · rw [if_neg hi, if_pos hj] at hlist
    simp [hempty] at hlist
  · rw [if_neg hi, if_neg hj, String.toList_append, String.toList_append] at hlist
    have hdigits := congrArg (fun ds => Nat.ofDigitChars 10 ds 0) (append_cancel_left hlist)
    simpa [Nat.toString_eq_ofList_toDigits] using hdigits

/-! ## Methods that fit -/

namespace Program

theorem Embeds.sameParams_of_types (h : p.Embeds q) {params : List TypeParamId}
    {same : Bool} (olds : List DefnId) : ∀ {news news' : List DefnId},
      news'.map q.defnTy? = news.map p.defnTy? → p.sameParams params args (olds.zip news) = .ok same →
      q.sameParams params args (olds.zip news') = .ok same := by
  induction olds with
  | nil => intro news news' _ hp; exact hp
  | cons old rest ih =>
    intro news news' htypes hp
    match news, news', htypes with
    | [], [], _ => exact hp
    | [], _ :: _, htypes => cases htypes
    | _ :: _, [], htypes => cases htypes
    | new :: news, new' :: news', htypes =>
      rw [map_cons, map_cons, List.cons.injEq] at htypes
      obtain ⟨oldDefn, hold, hp⟩ := bind_eq_ok.mp hp
      obtain ⟨newDefn, hnew, hp⟩ := bind_eq_ok.mp hp
      obtain ⟨oldDefn', hold', _, hty⟩ := h.defnAt hold
      have hnewTy : q.defnTy? new' = some newDefn.ty := by
        rw [htypes.1, defnTy?, entryAt_eq_ok.mp hnew]
        rfl
      obtain ⟨newDefn', hnew', hty'⟩ := map_eq_some_iff.mp hnewTy
      refine bind_eq_ok.mpr ⟨oldDefn', hold',
        bind_eq_ok.mpr ⟨newDefn', defnAt_eq hnew', ?_⟩⟩
      rw [hty, hty']
      split at hp
      · rw [if_pos ‹_›]
        exact ih htypes.2 hp
      · rw [if_neg ‹_›]
        exact hp

theorem instantiateSupertype_root (hcls : p.classes[k.index]? = some cls)
    (hst : cls.supertype = some ⟨objectClass, [], false⟩)
    (hk : k ≠ objectClass) : p.instantiateSupertype ⟨k, args, false⟩ objectClass = .ok (some []) := by
  have hsize : p.classes.size = p.classes.size - 1 + 1 := by
    have := lt_of_get hcls
    omega
  refine instantiateWithin_succ.mpr (.inr ⟨hk, cls, _, classAt_eq hcls, hst, ?_⟩)
  rw [hsize]
  rfl

theorem isCompatibleOverride_root {inherited : FunctionId}
    {old : FunctionDecl} (hcls : p.classes[k.index]? = some cls)
    (hst : cls.supertype = some ⟨objectClass, [], false⟩) (hk : k ≠ objectClass)
    (hroot : p.classes[objectClass.index]? = some root)
    (hold : p.functions[inherited.index]? = some old) (howner : old.kind = .method objectClass)
    (hnew : p.functions[method.index]? = some new)
    (hparams : old.params.length = new.params.length)
    (htypeParams : old.typeParams.length = new.typeParams.length)
    (hsame : p.sameParams (root.typeParams ++ old.typeParams) (new.typeParams.map .variable)
      ((old.params.drop 1).zip (new.params.drop 1)) = .ok true)
    (hsub : p.isSubtype new.returnTy (old.returnTy.substitute (root.typeParams ++ old.typeParams)
      (new.typeParams.map .variable)) = .ok true) :
    p.isCompatibleOverride k inherited method = .ok true := by
  refine (isCompatibleOverride_iff (classAt_eq hcls) (functionAt_eq hold) (functionAt_eq hnew)
    (by rw [howner]; rfl) (classAt_eq hroot) (instantiateSupertype_root hcls hst hk)).mpr
    ⟨⟨hparams, htypeParams⟩, ?_, hsub⟩
  rw [zip_eq_zipWith, drop_zipWith, ← zip_eq_zipWith]
  exact hsame

/-- A record may have a method like `f` with the given type parameters: wherever the root has a
method with this name, both take the same parameters and the result is one the root may give. -/
def FitsRoot (p : Program) (rootParams : List TypeParamId) (layout : ClassLayout) (f : FunctionDecl)
    (typeParams : List TypeParamId) : Prop :=
  ∀ slot ∈ layout.methods, ∀ old ∈ p.functions[slot.function.index]?, old.name = f.name →
    old.params.length = f.params.length + 1 ∧ old.typeParams.length = typeParams.length ∧
    p.sameParams (rootParams ++ old.typeParams) (typeParams.map .variable)
      ((old.params.drop 1).zip f.params) = .ok true ∧
    p.isSubtype f.returnTy (old.returnTy.substitute (rootParams ++ old.typeParams)
      (typeParams.map .variable)) = .ok true

instance {m : Checked Bool} {b : Bool} : Decidable (m = .ok b) :=
  decidable_of_iff (m.toOption = some b) ⟨eq_ok_of_toOption, fun h => by rw [h]; rfl⟩

instance {rootParams : List TypeParamId} {layout : ClassLayout} {f : FunctionDecl}
    {typeParams : List TypeParamId} : Decidable (p.FitsRoot rootParams layout f typeParams) :=
  inferInstanceAs (Decidable (∀ slot ∈ layout.methods, ∀ old ∈ p.functions[slot.function.index]?, _))

/-- The tables of the root, and its type parameters. -/
structure RootTables (p : Program) (rootParams : List TypeParamId) (layout : ClassLayout) : Prop where
  root : ∃ root, p.classes[objectClass.index]? = some root ∧ root.typeParams = rootParams
  fields : none ∉ p.fieldNames layout
  methods : ∀ slot ∈ layout.methods, p.HasKind slot.function (.method objectClass)

theorem Embeds.fieldNames (h : p.Embeds q) (hnamed : none ∉ p.fieldNames layout) :
    q.fieldNames layout = p.fieldNames layout := by
  refine map_congr_left fun slot hslot => ?_
  cases hdefn : p.definitions[slot.defn.index]? with
  | none =>
    refine absurd (mem_map.mpr ⟨slot, hslot, ?_⟩) hnamed
    rw [fieldName?, hdefn, Option.map_none]
  | some d =>
    obtain ⟨d', hd', hname, _⟩ := h.defns hdefn
    rw [fieldName?, fieldName?, hdefn, hd', map_some, map_some, hname]

theorem RootTables.of_embeds {rootParams : List TypeParamId}
    (htables : p.RootTables rootParams layout) (h : p.Embeds q) : q.RootTables rootParams layout where
  root := by
    obtain ⟨root, hroot, hparams⟩ := htables.root
    obtain ⟨_, hroot'⟩ := h.classes hroot
    exact ⟨_, hroot', hparams⟩
  fields := by
    rw [h.fieldNames htables.fields]
    exact htables.fields
  methods slot hslot := by
    obtain ⟨decl, hdecl, hkind⟩ := hasKind_iff.mp (htables.methods slot hslot)
    obtain ⟨decl', hdecl', _, _, hmember⟩ := h.functions hdecl
    refine hasKind_iff.mpr ⟨decl', hdecl', ?_⟩
    rw [(hmember (by rw [hkind]; nofun)).1, hkind]

theorem FitsRoot.compatible {rootParams : List TypeParamId}
    (hfit : p.FitsRoot rootParams layout f new.typeParams) (h : p.Embeds q) (hshaped : p.ClassesShaped)
    (htables : p.RootTables rootParams layout) (hcls : q.classes[k.index]? = some cls)
    (hst : cls.supertype = some ⟨objectClass, [], false⟩) (hk : k ≠ objectClass)
    (hnew : q.functions[method.index]? = some new) (hname : new.name = f.name)
    (hreturn : new.returnTy = f.returnTy)
    (hparams : new.params = receiver :: params) (htypes : params.map q.defnTy? = f.params.map p.defnTy?) :
    ∀ slot ∈ layout.methods, q.methodName? slot = some new.name →
      q.isCompatibleOverride k slot.function method = .ok true := by
  intro slot hslot hslotName
  obtain ⟨old, hold, hkind⟩ := hasKind_iff.mp (htables.methods slot hslot)
  obtain ⟨old', hold', hname', hreturn', hmember⟩ := h.functions hold
  obtain ⟨hkind', hparams', htypeParams'⟩ := hmember (by rw [hkind]; nofun)
  obtain ⟨root, hroot, hrootParams⟩ := (htables.of_embeds h).root
  have hsameName : old.name = f.name := by
    rw [methodName?, hold', map_some, hname', hname] at hslotName
    exact Option.some.inj hslotName
  obtain ⟨hlength, htypeLength, hsame, hsub⟩ := hfit slot hslot old hold hsameName
  have hcount : params.length = f.params.length := by
    simpa only [length_map] using congrArg List.length htypes
  refine isCompatibleOverride_root hcls hst hk hroot hold' (hkind'.trans hkind) hnew ?_ ?_ ?_ ?_
  · rw [hparams', hlength, hparams, length_cons, hcount]
  · rw [htypeParams', htypeLength]
  · rw [hrootParams, hparams', htypeParams', hparams]
    exact h.sameParams_of_types _ htypes hsame
  · rw [hrootParams, hreturn, hreturn', htypeParams']
    exact (h.sees hshaped).isSubtype _ _ hsub

/-! ## Records that can be flattened -/

/-- A class right below the root can be flattened if the names of its fields are new and its
methods fit. -/
theorem IsRecord.flattens {rootParams : List TypeParamId}
    (hk : q.IsRecord k ⟨origin, names, methods⟩) (h : q.Embeds r)
    (htables : r.RootTables rootParams layout) (hlayout : r.layoutOf objectClass = some layout)
    (hnodup : names.Nodup) (hnew : ∀ name ∈ names, name ∉ r.fieldNames layout)
    (hmethods : methods.length ≤ 1)
    (hfit : ∀ m ∈ methods, ∃ new, r.functions[m.index]? = some new ∧ ∀ slot ∈ layout.methods,
      r.methodName? slot = some new.name → r.isCompatibleOverride k slot.function m = .ok true) :
    ∃ layout', r.flattenClass k = .ok layout' := by
  obtain ⟨name, scope, typeParams, fields, constructors, hcls, hnames, hlt⟩ := hk
  change fields.map _ = names at hnames
  obtain ⟨old, hcls⟩ := h.classes hcls
  have hsame : (fields.map FieldDecl.defn).map r.defnName? = names := by
    rw [← hnames, map_map]
    refine map_congr_left fun field hfield => ?_
    obtain ⟨d, hd⟩ := exists_of_lt (hlt field hfield)
    obtain ⟨d', hd', hname, _⟩ := h.defns hd
    rw [Function.comp_apply, defnName?, defnName?, hd, hd', map_some, map_some, hname]
  have hknown : none ∉ names := by
    rw [← hnames, mem_map]
    rintro ⟨field, hfield, hnone⟩
    obtain ⟨d, hd⟩ := exists_of_lt (hlt field hfield)
    rw [defnName?, hd] at hnone
    cases hnone
  rw [← hsame] at hknown hnodup hnew
  obtain ⟨layout1, hfields⟩ := @addFieldSlots_of_names r k name _ layout htables.fields hknown hnodup hnew
  have hslots : layout1.methods = layout.methods := methods_addFieldSlots _ hfields
  have hown : ∃ layout', r.addOwnMethods { newClass k name (some ⟨objectClass, [], false⟩) scope origin with
      typeParams, fields, methods, constructors
      layout := old } k [] layout1 methods = .ok layout' := by
    rcases methods with _ | ⟨m, _ | ⟨_, _⟩⟩
    · exact ⟨layout1, rfl⟩
    · obtain ⟨new, hm, hcompatible⟩ := hfit m (.head _)
      rw [← hslots] at hcompatible
      obtain ⟨layout', hlayout'⟩ := addMethodSlot_of_compatible hm (fun slot hslot => by
        obtain ⟨decl, hdecl, _⟩ := hasKind_iff.mp (htables.methods slot (hslots ▸ hslot))
        exact ⟨decl, hdecl⟩) hcompatible
      refine ⟨layout', bind_eq_ok.mpr ⟨new, functionAt_eq hm, ?_⟩⟩
      rw [if_neg not_mem_nil]
      exact bind_eq_ok.mpr ⟨layout', hlayout', rfl⟩
    · simp at hmethods
  obtain ⟨layout', hown⟩ := hown
  exact ⟨layout', bind_eq_ok.mpr ⟨_, classAt_eq hcls, bind_eq_ok.mpr
    ⟨layout, inheritedLayout_of_layoutOf rfl hlayout, bind_eq_ok.mpr
      ⟨layout, rfl, bind_eq_ok.mpr ⟨layout1, hfields, hown⟩⟩⟩⟩⟩

/-- The records that conversion makes can inherit from a root with the given tables. -/
@[mk_iff]
structure RecordsFit (p : Program) (c : Captures) (rootParams : List TypeParamId)
    (layout : ClassLayout) : Prop where
  /-- What a scope holds has names of its own. -/
  contexts : ∀ s ∈ c.captured.keys, (p.contextNames c s).Nodup ∧
    ∀ name ∈ p.contextNames c s, name ∉ p.fieldNames layout
  closures : ∀ f ∈ c.closures.toList,
    (∀ i < ((c.needed.find? f).getD []).length, some (contextFieldName i) ∉ p.fieldNames layout) ∧
    ∀ decl ∈ p.functions[f.index]?, ∀ parent ∈ c.parents.find? f,
      ∀ inherited ∈ (p.scopeTypeParams parent).toOption,
        p.FitsRoot rootParams layout decl (decl.typeParams.drop inherited.length)
  values : ∀ f ∈ c.values.toList, ∀ decl ∈ p.functions[f.index]?,
    p.FitsRoot rootParams layout decl decl.typeParams

instance {c : Captures} {rootParams : List TypeParamId} {layout : ClassLayout} :
    Decidable (p.RecordsFit c rootParams layout) :=
  decidable_of_iff _ (recordsFit_iff ..).symm

theorem Embeds.typesOf (h : p.Embeds q) {ds : List DefnId}
    (hds : ∀ d ∈ ds, d.index < p.definitions.size) :
    ds.map q.defnTy? = ds.map p.defnTy? := by
  refine map_congr_left fun d hd => ?_
  obtain ⟨defn, hdefn⟩ := exists_of_lt (hds d hd)
  obtain ⟨defn', hdefn', _, hty⟩ := h.defns hdefn
  rw [defnTy?, defnTy?, hdefn, hdefn', map_some, map_some, hty]

section

variable {rootParams : List TypeParamId}
  (htables : p.RootTables rootParams layout) (hshaped : p.ClassesShaped)
  (hpq : p.Embeds q) (hqr : q.Embeds r) (hlayout : r.layoutOf objectClass = some layout)
  (hk : k ≠ objectClass)
include htables hshaped hpq hqr hlayout hk

theorem IsRecord.flattens_method {m : FunctionId}
    (hrecord : q.IsRecord k ⟨origin, names, [m]⟩) (hnodup : names.Nodup)
    (hnew : ∀ name ∈ names, name ∉ p.fieldNames layout)
    (hm : q.functions[m.index]? = some new) (howner : new.kind.owner? ≠ none)
    (hfit : p.FitsRoot rootParams layout f new.typeParams) (hname : new.name = f.name)
    (hreturn : new.returnTy = f.returnTy)
    (hparams : new.params = receiver :: params) (hknown : ∀ d ∈ params, d.index < q.definitions.size)
    (htypes : params.map q.defnTy? = f.params.map p.defnTy?) :
    ∃ layout', r.flattenClass k = .ok layout' := by
  have hpr := hpq.trans hqr
  obtain ⟨new', hm', hname', hreturn', hmember⟩ := hqr.functions hm
  obtain ⟨_, hparams', htypeParams'⟩ := hmember howner
  obtain ⟨_, _, _, _, _, hcls, _⟩ := id hrecord
  obtain ⟨_, hcls'⟩ := hqr.classes hcls
  rw [← hpr.fieldNames htables.fields] at hnew
  refine hrecord.flattens hqr (htables.of_embeds hpr) hlayout hnodup hnew (Nat.le_refl 1) ?_
  refine forall_mem_singleton.mpr ⟨new', hm', ?_⟩
  rw [← htypeParams'] at hfit
  exact hfit.compatible hpr hshaped htables hcls' rfl hk hm' (hname'.trans hname)
    (hreturn'.trans hreturn) (hparams'.trans hparams) ((hqr.typesOf hknown).trans htypes)

theorem RecordsFit.flattens (hfit : p.RecordsFit c rootParams layout) (hp : p.Consistent)
    (hrecorded : p.Recorded c plan q) (hrecord : p.RecordOf c q k) :
    ∃ layout', r.flattenClass k = .ok layout' := by
  cases hrecord with
  | @context s hs record =>
    have hpr := hpq.trans hqr
    obtain ⟨hnodup, hnew⟩ := hfit.contexts s hs
    rw [← hpr.fieldNames htables.fields] at hnew
    exact record.flattens hqr (htables.of_embeds hpr) hlayout hnodup hnew (Nat.zero_le 1)
      (forall_mem_nil _)
  | @closure f hf record =>
    obtain ⟨closure, hclosure⟩ := hrecorded.closures f hf
    obtain ⟨parent, inherited, hparent, hinherited, hlength⟩ :=
      (hrecorded.planned.closures hclosure).inherits
    obtain ⟨decl, _, _, hdecl, hmethod, _⟩ := (hrecorded.planned.closures hclosure).method
    obtain ⟨hnew, hmethodFit⟩ := hfit.closures f hf
    have hparams : ∀ d ∈ decl.params, d.index < p.definitions.size := by
      intro d hd
      obtain ⟨_, hdefn, _⟩ := (hp.function hdecl).params d hd
      exact lt_of_get hdefn
    have hmethodFit := hmethodFit decl hdecl parent hparent inherited (by rw [hinherited]; rfl)
    rw [← hlength] at hmethodFit
    refine record.flattens_method htables hshaped hpq hqr hlayout hk ?_ ?_ hmethod nofun hmethodFit
      rfl rfl rfl ?_ (hpq.typesOf hparams)
    · exact nodup_range.map fun i j hij => contextFieldName_inj (Option.some.inj hij)
    · intro name hname
      obtain ⟨i, hi, rfl⟩ := mem_map.mp hname
      exact hnew i (mem_range.mp hi)
    · intro d hd
      obtain ⟨_, hdefn⟩ := exists_of_lt (hparams d hd)
      obtain ⟨_, hdefn', _⟩ := hpq.defns hdefn
      exact lt_of_get hdefn'
  | @value f m hf record forwards =>
    obtain ⟨decl, _, scope, receiver, copies, args, hdecl, hmethod, htypes, hlt⟩ := forwards
    exact record.flattens_method htables hshaped hpq hqr hlayout hk nodup_nil
      (forall_mem_nil _) hmethod nofun (hfit.values f hf decl hdecl) rfl rfl rfl hlt htypes

end

/-! ## Classes that were there before -/

theorem Recoded.embeds (h : p.Recoded q) : p.Embeds q where
  defns {i d} hd := ⟨d, by rw [h.definitions]; exact hd, rfl, rfl⟩
  functions hf := by
    obtain ⟨body, chain, hf'⟩ := h.functions hf
    exact ⟨_, hf', rfl, rfl, fun _ => ⟨rfl, rfl, rfl⟩⟩
  classes {i cls} hcls := ⟨cls.layout, by rw [h.classes]; exact hcls⟩

theorem Recoded.classesShaped (h : p.Recoded q) (hp : p.ClassesShaped) : q.ClassesShaped := by
  intro i cls hcls
  rw [h.classes] at hcls
  refine (hp hcls).of_keeps (fun f kind hf => ?_) (declaredIn_same h.definitions)
  obtain ⟨decl, hdecl, hkind⟩ := hasKind_iff.mp hf
  obtain ⟨body, chain, hdecl'⟩ := h.functions hdecl
  exact hasKind_iff.mpr ⟨_, hdecl', hkind⟩

/-- Nested functions become methods with their names and results, and nothing else is changed. -/
theorem Recorded.embeds (h : p.Recorded c plan q)
    (hglobal : ∀ f ∈ c.closures.toList, p.HasKind f .global) : p.Embeds q where
  defns hd := by
    obtain ⟨d', hd', _, hname, hty, _⟩ := h.builds.changes.defns hd
    exact ⟨d', hd', hname, hty⟩
  functions {i decl} hf := by
    by_cases hclosure : (⟨i⟩ : FunctionId) ∈ c.closures.toList
    · obtain ⟨closure, hfound⟩ := h.closures ⟨i⟩ hclosure
      obtain ⟨decl', _, _, hdecl', hmethod, _⟩ := (h.planned.closures hfound).method
      cases hf.symm.trans hdecl'
      refine ⟨_, hmethod, rfl, rfl, fun howner => absurd ?_ howner⟩
      obtain ⟨_, hdecl', hkind⟩ := hasKind_iff.mp (hglobal ⟨i⟩ hclosure)
      cases hf.symm.trans hdecl'
      rw [hkind]
      rfl
    · obtain ⟨decl', hf', _, _, _, hsame⟩ := h.builds.changes.functions hf
      cases hsame hclosure
      exact ⟨_, hf', rfl, rfl, fun _ => ⟨rfl, rfl, rfl⟩⟩
  classes {i cls} hcls := by
    obtain ⟨cls', hcls', _, _, _, _, hsame⟩ := h.builds.changes.classes hcls
    cases hsame nofun
    exact ⟨_, hcls'⟩

theorem Embeds.basesFirst (h : p.Embeds q) (hp : p.BasesFirst)
    (hnew : ∀ {i cls}, p.classes.size ≤ i → q.classes[i]? = some cls → ∀ b ∈ bases cls, b.index < i) :
    q.BasesFirst := by
  intro i cls hcls b hb
  by_cases hi : i < p.classes.size
  · obtain ⟨cls0, hcls0⟩ := exists_of_lt hi
    obtain ⟨_, hcls'⟩ := h.classes hcls0
    cases hcls.symm.trans hcls'
    exact hp hcls0 b hb
  · exact hnew (Nat.le_of_not_lt hi) hcls b hb

theorem IsRecord.bases_eq (h : p.IsRecord k shape)
    (hcls : p.classes[k.index]? = some cls) : bases cls = [objectClass] := by
  obtain ⟨_, _, _, _, _, hcls', _⟩ := h
  cases hcls.symm.trans hcls'
  rfl

theorem RecordOf.bases_eq (h : p.RecordOf c q k) (hcls : q.classes[k.index]? = some cls) :
    bases cls = [objectClass] := by
  cases h with
  | context _ record | closure _ record | value _ record => exact record.bases_eq hcls

theorem Conversion.closure_global {p1 p2 : Program} {u : Usage}
    {needed : RefMap .functions (RefSet .scopes)}
    (h : p.Conversion p1 u needed c plan p2 q) (hp : p.Shaped) {f : FunctionId}
    (hf : f ∈ c.closures.toList) : p1.HasKind f .global := by
  obtain ⟨parent, _, hparent⟩ := h.captures.parent hf
  obtain ⟨decl, hdecl⟩ := exists_of_lt (h.captures.closure_lt hf)
  obtain ⟨_, _, hdecl1⟩ := h.resolved.recoded.symm.functions hdecl
  rw [h.resolved.recoded.enclosingFunction] at hparent
  have hkind := hp.kind_of_nested hdecl1 hparent
  exact hasKind_iff.mpr ⟨decl, hdecl, hkind⟩

/-- The tables of the root are the same for every program with its members. -/
theorem rootTables_of_flattenClasses {p0 : Program}
    (hflat : Pass.flattenClasses.Gives p () p0) (hshaped : p.ClassesShaped) (hids : p.ClassesNumbered)
    (hroot : p.classes[objectClass.index]? = some root)
    (hlayout : p0.layoutOf objectClass = some layout) : p.RootTables root.typeParams layout := by
  obtain ⟨hagree, hflattened⟩ := flattened_of_flattenClasses hflat hids
  obtain ⟨_, hroot0⟩ := hagree.embeds.classes hroot
  exact RootTables.of_embeds ⟨⟨_, hroot0, rfl⟩, (hflattened.distinct hlayout).fieldsNamed,
    hflattened.rootMethods (hagree.classesShaped hshaped) hlayout⟩ hagree.symm.embeds

end Program

namespace Pass

open Program

/-- Where the records can inherit from the root, closure conversion keeps classes that can be
flattened. -/
theorem flattenClasses_converted {p₁ p₀ : Program} (hp : Constructed p)
    (hmembers : synthesizeMembers.Gives p () p₁) (hflat : flattenClasses.Gives p₁ () p₀)
    (hconvert : convertClosures.Gives p₁ () q)
    (hfit : ∀ {p₂ c root layout}, resolveReceivers.Gives p₁ () p₂ → p₂.captures = .ok c →
      p₁.classes[objectClass.index]? = some root → p₀.layoutOf objectClass = some layout →
      p₂.RecordsFit c root.typeParams layout) :
    ∃ r, flattenClasses.Gives q () r := by
  have hadded := synthesizeMembers_gives hp.source hp.shaped hmembers
  obtain ⟨p₂, u, needed, c, plan, p₃, hresolve, hc, _, hconversion⟩ :=
    convertClosures_gives hadded.consistent hconvert
  have hp₂ := hconversion.resolved.recoded.consistent hadded.consistent
  have hshaped : p₁.ClassesShaped := fun i cls hcls => hadded.shaped.cls hcls
  have hids : p₁.ClassesNumbered := fun i cls hcls => (hadded.consistent.cls hcls).id
  have hq := hconversion.converted.recoded.consistent hconversion.recorded.builds.consistent
  -- What was there before, from one program to the next.
  have hresolved := hconversion.resolved.recoded.embeds
  have hrecorded := hconversion.recorded.embeds fun f hf =>
    hconversion.closure_global hadded.shaped hf
  have hconverted := hconversion.converted.recoded.embeds
  have hembeds := (hresolved.trans hrecorded).trans hconverted
  obtain ⟨hagree, hflattened⟩ := flattened_of_flattenClasses hflat hids
  obtain ⟨root, hroot⟩ := exists_of_lt hadded.shaped.root
  obtain ⟨layout, hlayout, _⟩ := hflattened.flat objectClass (by rw [hagree.size]; exact hadded.shaped.root)
  have htables := (rootTables_of_flattenClasses hflat hshaped hids hroot hlayout).of_embeds hresolved
  have hrecord : ∀ {i}, p₁.classes.size ≤ i → i < q.classes.size → p₂.RecordOf c p₃ ⟨i⟩ := by
    intro i hi hlt
    rw [hconversion.converted.recoded.classes] at hlt
    rw [← hconversion.resolved.recoded.classes] at hi
    exact hconversion.recorded.recordOf hconversion.captures hi hlt
  have hbelow : ∀ {i}, p₁.classes.size ≤ i → objectClass.index < i := fun hi =>
    Nat.lt_of_lt_of_le hadded.shaped.root hi
  have hfirst : q.BasesFirst := hembeds.basesFirst hshaped.basesFirst fun {i cls} hi hcls b hb => by
    have hrecord := hrecord hi (lt_of_get hcls)
    rw [hconversion.converted.recoded.classes] at hcls
    rw [hrecord.bases_eq hcls, mem_singleton] at hb
    rw [hb]
    exact hbelow hi
  refine flattenClasses_grown hflat hshaped hids hembeds (fun i cls hcls => (hq.cls hcls).id) hfirst
    fun {i r} hi hlt hr hlayouts => ?_
  have hne : (⟨i⟩ : ClassId) ≠ objectClass := fun heq =>
    Nat.ne_of_gt (hbelow hi) (congrArg Ref.index heq)
  exact RecordsFit.flattens htables (hconversion.resolved.recoded.classesShaped hshaped) hrecorded
    (hconverted.trans hr.embeds) ((hlayouts objectClass hadded.shaped.root).trans hlayout) hne
    (hfit hresolve hc hroot hlayout) hp₂ hconversion.recorded (hrecord hi hlt)

end Pass

/-! A closure with a method of the root: `f() { var x; fun to-string = x; to-string }`. -/

def Program.overriding : Program :=
  .built [
    .function "f" .unit, .localVar ⟨10⟩ "x" (.ofClass stringClass) true,
    .nestedFunction ⟨10⟩ "to-string" (.ofClass stringClass),
    .body ⟨11⟩ (.variable (.ofClass stringClass) ⟨14⟩),
    .body ⟨10⟩ (.mkBlock [.function ⟨11⟩, .expr (.mkFunctionValue ⟨11⟩)])]

open Pass in
theorem flattenClasses_converted_overriding :
    Constructed .overriding ∧ ∃ p₁ p₀ q r, synthesizeMembers.Gives .overriding () p₁ ∧
      flattenClasses.Gives p₁ () p₀ ∧ convertClosures.Gives p₁ () q ∧ flattenClasses.Gives q () r := by
  have hp : Constructed .overriding := .built (by decide +kernel)
  have hview : synthesizeMembers.view? (fun p₁ => (convertClosures.succeeds p₁,
      flattenClasses.view? (fun p₀ => resolveReceivers.view? (fun p₂ =>
        p₂.captures.toOption.bind fun c => p₁.classes[objectClass.index]?.bind fun root =>
          (p₀.layoutOf objectClass).map fun layout =>
            decide (p₂.RecordsFit c root.typeParams layout)) p₁) p₁)) Program.overriding =
      some (true, some (some (some true))) := by cbv
  obtain ⟨hmembers, hview⟩ := gives_of_view _ _ hview
  obtain ⟨hconvert, hview⟩ := Prod.mk.inj hview
  have hconvert := gives_left hconvert
  obtain ⟨hflat, hview⟩ := gives_of_view _ _ hview
  obtain ⟨hresolve, hview⟩ := gives_of_view _ _ hview
  obtain ⟨r, hr⟩ := flattenClasses_converted hp hmembers hflat hconvert
    fun {p₂ c root layout} hp₂ hc hroot hlayout => by
      obtain ⟨_, rfl⟩ := hresolve.unique hp₂
      rw [hc, hroot, hlayout] at hview
      exact of_decide_eq_true (Option.some.inj hview)
  exact ⟨hp, _, _, _, r, hmembers, hflat, hconvert, hr⟩

/-! Captured variables that share a name, `f() { var x; var x; fun h = { x; x } }`, and a closure
that cannot have the name of a method of the root, `f() { fun typeof = 1; typeof }`. -/

def Program.sharingName : Program :=
  .built [
    .function "f" .unit, .localVar ⟨10⟩ "x" .i64 true, .localVar ⟨10⟩ "x" .i64 true,
    .nestedFunction ⟨10⟩ "h" .i64,
    .body ⟨11⟩ (.mkBlock [.expr (.variable .i64 ⟨14⟩), .expr (.variable .i64 ⟨15⟩)]),
    .body ⟨10⟩ (.mkBlock [.function ⟨11⟩])]

def Program.misnaming : Program :=
  .built [
    .function "f" .unit, .nestedFunction ⟨10⟩ "typeof" .i64, .body ⟨11⟩ (.ofLiteral (.i64 1)),
    .body ⟨10⟩ (.mkBlock [.function ⟨11⟩, .expr (.mkFunctionValue ⟨11⟩)])]

open Pass in
/-- Classes that could be flattened cannot after closure conversion. -/
def Program.LosesTables (p : Program) : Prop :=
  ∃ p1 p0 q, synthesizeMembers.Gives p () p1 ∧ flattenClasses.Gives p1 () p0 ∧
    convertClosures.Gives p1 () q ∧ ∀ r, ¬ flattenClasses.Gives q () r

open Pass in
theorem Program.losesTables_of_view (h : synthesizeMembers.view? (fun p1 =>
    (flattenClasses.succeeds p1, convertClosures.view? (fun q => Pass.succeeds flattenClasses q) p1)) p =
      some (true, some false)) : p.LosesTables := by
  obtain ⟨hmembers, h⟩ := gives_of_view _ _ h
  obtain ⟨hflat, h⟩ := Prod.mk.inj h
  obtain ⟨hconvert, hfails⟩ := gives_of_view _ _ h
  refine ⟨_, _, _, hmembers, gives_left hflat, hconvert, fun r hr => ?_⟩
  unfold Pass.succeeds at hfails
  rw [show flattenClasses _ = _ from hr] at hfails
  cases hfails

theorem captured_names_clash : (Constructed .sharingName ∧ Program.sharingName.LosesTables) ∧
    Constructed .misnaming ∧ Program.misnaming.LosesTables :=
  ⟨⟨.built (by decide +kernel), Program.losesTables_of_view (by cbv)⟩,
    .built (by decide +kernel), Program.losesTables_of_view (by cbv)⟩

end StackBackend
