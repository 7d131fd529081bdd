import StackBackend.Proofs.Layout.Embedding
import StackBackend.Proofs.Layout.Views

/-! Overrides along the whole superclass chain. A method is compared with the one that it
takes the place of. If both are read in a class further down, their types still agree, so a
method in a slot takes the parameters of every method that the slot had above it. -/

namespace StackBackend

variable {p q r : Program} {a b c : ClassId} {acls bcls ccls : ClassDecl} {v : TypeParamId}
  {old mid new : FunctionDecl} {f x m : FunctionId} {σ τ ρ : TypeParamId → Option Ty}
  {xs ys : List Ty} {i : Nat} {s : MethodSlot} {layout base : ClassLayout}
variable {cls : ClassDecl} {d : DefnId} {defn : Definition}

/-! ## Readings -/

open Ty in
theorem Ty.image_argumentFor_self {ts : List TypeParamId} :
    image (argumentFor ts (ts.map .variable)) v = .variable v := by
  by_cases hv : v ∈ ts
  · obtain ⟨i, hi, heq, hargs⟩ := argumentFor_of_mem hv
    simp [image, hargs, hi, heq]
  · rw [image, argumentFor_of_notMem hv, Option.getD_none]

namespace FunctionDecl

open Ty

theorem image_reading_self : image (new.reading bcls xs new) v = image (argumentFor bcls.typeParams xs) v := by
  have hself := @image_argumentFor_self v new.typeParams
  unfold image at hself ⊢
  unfold reading
  cases argumentFor bcls.typeParams xs v with
  | none => rw [Option.none_or, hself, Option.getD_none]
  | some ty => rfl

theorem reading_of_mem (hxs : xs.length = bcls.typeParams.length) (hv : v ∈ bcls.typeParams) :
    old.reading bcls xs new v = argumentFor bcls.typeParams xs v := by
  obtain ⟨i, hi, _, hargs⟩ := argumentFor_of_mem hv
  rw [reading, hargs, List.getElem?_eq_getElem (hxs ▸ hi), Option.some_or]

theorem reading_of_notMem (hv : v ∉ bcls.typeParams) :
    old.reading bcls xs new v = argumentFor old.typeParams (new.typeParams.map .variable) v := by
  rw [reading, argumentFor_of_notMem hv, Option.none_or]

theorem reading_reading (hys : ys.length = acls.typeParams.length)
    (hxs : xs.length = bcls.typeParams.length) (hmid : old.typeParams.length = mid.typeParams.length)
    (hnew : mid.typeParams.length = new.typeParams.length) (hnodup : mid.typeParams.Nodup)
    (hown : ∀ t ∈ mid.typeParams, t ∉ bcls.typeParams)
    (hseen : ∀ w, .typeParam w ∈ mentionsOfTys ys → w ∈ bcls.typeParams ∨ w ∉ mid.typeParams)
    (hv : v ∈ acls.typeParams ∨ v ∈ old.typeParams) :
    (image (old.reading acls ys mid) v).replace (mid.reading bcls xs new) =
      image (old.reading acls (replaceAll (argumentFor bcls.typeParams xs) ys) new) v := by
  by_cases ha : v ∈ acls.typeParams
  · -- an argument is read with what its own variables stand for
    obtain ⟨i, hi, _, hargs⟩ := argumentFor_of_mem ha
    have hi' : i < ys.length := hys ▸ hi
    rw [replaceAll_eq_map, image, image, reading_of_mem hys ha, reading_of_mem (by simp [hys]) ha,
      hargs, hargs, List.getElem?_map, List.getElem?_eq_getElem hi']
    refine replace_congr fun w hw => ?_
    rcases hseen w (mem_mentionsOfTys.mpr ⟨_, List.getElem_mem hi', hw⟩) with hmem | hnot
    · rw [image, image, reading_of_mem hxs hmem]
    · rw [image, image, reading, argumentFor_of_notMem hnot, Option.or_none]
  · -- a type parameter of the method is renamed twice
    obtain ⟨i, hi, _, hargs⟩ := argumentFor_of_mem (hv.resolve_left ha)
    have hi' : i < mid.typeParams.length := hmid ▸ hi
    rw [image, image, reading_of_notMem ha, reading_of_notMem ha, hargs, hargs]
    simp only [List.getElem?_map, List.getElem?_eq_getElem hi', List.getElem?_eq_getElem (hnew ▸ hi'),
      Option.map_some, Option.getD_some, replace]
    rw [reading_of_notMem (hown _ (List.getElem_mem hi')), argumentFor_getElem hnodup hi',
      List.getElem?_map, List.getElem?_eq_getElem (hnew ▸ hi')]
    rfl

theorem substitute_eq_reading (hxs : xs.length = bcls.typeParams.length) (ty : Ty) :
    ty.substitute (bcls.typeParams ++ old.typeParams) (xs ++ new.typeParams.map .variable) =
      ty.replace (old.reading bcls xs new) := by
  rw [substitute_eq_replace]
  exact congrArg (replace · ty) (funext fun v => argumentFor_append hxs v)

end FunctionDecl

namespace Program

/-- No other type parameter is mentioned. -/
def OnlyOf (ts : List TypeParamId) (m : Mention) : Bool :=
  match m with
  | .typeParam t => t ∈ ts
  | .cls _ | .function _ => true

/-- Parameters of a method mention type parameters of its class and of the method only. -/
def ParamsScoped (p : Program) : Prop :=
  ∀ f ∈ p.functions.toList, ∀ cls ∈ p.classes.toList, f.kind = .method cls.id →
    ∀ d ∈ f.params.drop 1, ∀ defn ∈ p.definitions[d.index]?, ∀ m ∈ defn.ty.mentions,
      OnlyOf (cls.typeParams ++ f.typeParams) m

/-- Two methods have as many parameters of either sort, and these have the same types once the
first ones are read with `σ`. The receivers do not count. -/
structure TakesSame (p : Program) (σ : TypeParamId → Option Ty) (old new : FunctionDecl) : Prop where
  params : old.params.length = new.params.length
  typeParams : old.typeParams.length = new.typeParams.length
  types : ∀ {i d e}, 0 < i → old.params[i]? = some d → new.params[i]? = some e →
    ∃ x y, p.defnAt d = .ok x ∧ p.defnAt e = .ok y ∧ x.ty.replace σ = y.ty

theorem TakesSame.trans (h : p.TakesSame σ old mid) (h' : p.TakesSame τ mid new)
    (hρ : ∀ {i d x v}, 0 < i → old.params[i]? = some d → p.defnAt d = .ok x →
      .typeParam v ∈ x.ty.mentions → (Ty.image σ v).replace τ = Ty.image ρ v) :
    p.TakesSame ρ old new where
  params := h.params.trans h'.params
  typeParams := h.typeParams.trans h'.typeParams
  types {i d e} hi hd he := by
    obtain ⟨k, hk⟩ : ∃ k, mid.params[i]? = some k := by
      have hlt := (List.getElem?_eq_some_iff.mp hd).1
      exact ⟨_, List.getElem?_eq_getElem (h.params ▸ hlt)⟩
    obtain ⟨x, y, hx, hy, hty⟩ := h.types hi hd hk
    obtain ⟨y', z, hy', hz, hty'⟩ := h'.types hi hk he
    cases hy.symm.trans hy'
    refine ⟨x, z, hx, hz, ?_⟩
    rw [← Ty.replace_replace x.ty fun v hv => hρ hi hd hx hv, hty, hty']

/-- Generic classes and methods that keep to their own type parameters. -/
structure KeepsTypeParams (p : Program) : Prop where
  numbered : p.ClassesNumbered
  first : p.SuperclassesFirst
  apart : p.TypeParamsApart
  complete : p.ArgsComplete
  params : p.ParamsScoped

/-- The method takes what `old` takes, as its owner sees it. -/
def Follows (p : Program) (old : FunctionDecl) (a : ClassId) (acls : ClassDecl) (g : FunctionId)
    (b : ClassId) : Prop :=
  ∃ new args, p.functionAt g = .ok new ∧ new.kind = .method b ∧ p.SeenAs b a args ∧
    p.TakesSame (old.reading acls args new) old new

section

variable (hold : p.functionAt f = .ok old) (hkind : old.kind = .method a) (ha : p.classAt a = .ok acls)
include hold hkind ha

theorem Follows.refl (hparams : ∀ d ∈ old.params, ∃ defn, p.defnAt d = .ok defn) :
    p.Follows old a acls f a := by
  refine ⟨old, _, hold, hkind, .refl ha, rfl, rfl, fun {i d e} _ hd he => ?_⟩
  cases hd.symm.trans he
  obtain ⟨defn, hdefn⟩ := hparams d (List.mem_of_getElem? hd)
  refine ⟨defn, defn, hdefn, hdefn, (Ty.replace_congr fun v _ => ?_).trans (Ty.replace_none defn.ty)⟩
  rw [FunctionDecl.image_reading_self, Ty.image_argumentFor_self]
  rfl

variable (hp : p.KeepsTypeParams)
include hp

theorem KeepsTypeParams.mem (hi : 0 < i)
    (hd : old.params[i]? = some d) (hdefn : p.defnAt d = .ok defn)
    (hv : .typeParam v ∈ defn.ty.mentions) : v ∈ acls.typeParams ∨ v ∈ old.typeParams := by
  have hid := hp.numbered _ _ (entryAt_eq_ok.mp ha)
  have hmem : d ∈ old.params.drop 1 := by
    refine List.mem_of_getElem? (i := i - 1) ?_
    rw [List.getElem?_drop, Nat.add_sub_cancel' hi]
    exact hd
  have hf := Array.mem_toList_iff.mpr (Array.mem_of_getElem? (entryAt_eq_ok.mp hold))
  have honly := hp.params old hf acls (mem_classes ha) (hid ▸ hkind) d hmem defn (entryAt_eq_ok.mp hdefn) _ hv
  exact List.mem_append.mp (of_decide_eq_true honly)

theorem KeepsTypeParams.image_reading (hmid : p.functionAt x = .ok mid) (hkind' : mid.kind = .method b)
    (hb : p.classAt b = .ok bcls) (hseen : p.SeenAs b a ys) (hxs : xs.length = bcls.typeParams.length)
    (hlen : old.typeParams.length = mid.typeParams.length)
    (hlen' : mid.typeParams.length = new.typeParams.length)
    (hi : 0 < i) (hd : old.params[i]? = some d) (hdefn : p.defnAt d = .ok defn)
    (hv : .typeParam v ∈ defn.ty.mentions) :
    (Ty.image (old.reading acls ys mid) v).replace (mid.reading bcls xs new) =
      Ty.image (old.reading acls (Ty.replaceAll (Ty.argumentFor bcls.typeParams xs) ys) new) v := by
  have howner : mid.kind.owner? = some b := by rw [hkind']; rfl
  obtain ⟨hnodup, hown⟩ := hp.apart.own (entryAt_eq_ok.mp hmid) howner
  refine FunctionDecl.reading_reading (hseen.length hp.complete ha) hxs hlen hlen' hnodup
    (hown bcls (entryAt_eq_ok.mp hb)) (fun w hw => ?_) (hp.mem hold hkind ha hi hd hdefn hv)
  refine (hseen.mem hp.first hp.apart hp.complete hb hw).imp id fun hnot hmem => hnot ?_
  exact .inr ⟨x.index, mid, entryAt_eq_ok.mp hmid, howner, hmem⟩

theorem Follows.step (h : p.Follows old a acls x b) (habove : p.Above c b)
    (hc : p.classAt c = .ok ccls) (hm : p.HasKind m (.method c))
    (hcompatible : p.isCompatibleOverride c x m = .ok true) : p.Follows old a acls m c := by
  obtain ⟨mid, ys, hmid, hkind', hseen, hsame⟩ := h
  obtain ⟨new, hnew, hkindNew⟩ := hasKind_iff.mp hm
  obtain ⟨bcls, hb, _⟩ := id hseen
  obtain ⟨xs, hxs⟩ := exists_along habove (ccls.typeParams.map .variable)
  have hcb : p.SeenAs c b xs := ⟨ccls, hc, hxs⟩
  have hlen := hcb.length hp.complete hb
  obtain ⟨⟨hparams, htypeParams⟩, htypes, _⟩ := (isCompatibleOverride_iff hc hmid (functionAt_eq hnew)
    (by rw [hkind']; rfl) hb (hcb.instantiate hp.first hc)).mp hcompatible
  have hreplaced : p.TakesSame (mid.reading bcls xs new) mid new := by
    refine ⟨hparams, htypeParams, fun {i d e} hi hd he => ?_⟩
    have hmem : (d, e) ∈ (mid.params.zip new.params).drop 1 := by
      refine List.mem_of_getElem? (i := i - 1) ?_
      rw [List.getElem?_drop, Nat.add_sub_cancel' hi]
      exact List.getElem?_zip_eq_some.mpr ⟨hd, he⟩
    obtain ⟨x, y, hx, hy, hty⟩ := sameParams_eq_true.mp htypes _ hmem
    refine ⟨x, y, hx, hy, ?_⟩
    exact (FunctionDecl.substitute_eq_reading hlen x.ty).symm.trans hty
  refine ⟨new, _, functionAt_eq hnew, hkindNew, hcb.trans hp.first hp.apart hseen hp.complete hb,
    hsame.trans hreplaced fun hi hd hx hv => ?_⟩
  exact hp.image_reading hold hkind ha hmid hkind' hb hseen hlen hsame.typeParams htypeParams hi hd hx hv

end

/-! ## Views from below -/

/-- A method and its class, with what the type parameters of that class are further down. -/
structure SeenFrom (p : Program) (c : ClassId) (f : FunctionId) (decl : FunctionDecl)
    (owner : ClassDecl) (args : List Ty) : Prop where
  functionAt : p.functionAt f = .ok decl
  kind : decl.kind = .method owner.id
  classAt : p.classAt owner.id = .ok owner
  found : ∃ this, p.thisClassTy c = .ok this ∧ p.instantiateSupertype this owner.id = .ok (some args)

theorem SeenAs.seenFrom (h : p.SeenAs c a xs) (hp : p.KeepsTypeParams) (hold : p.functionAt f = .ok old)
    (hkind : old.kind = .method a) (ha : p.classAt a = .ok acls) : p.SeenFrom c f old acls xs := by
  obtain rfl : acls.id = a := hp.numbered _ _ (entryAt_eq_ok.mp ha)
  obtain ⟨ccls, hc, _⟩ := id h
  refine ⟨hold, hkind, ha, ⟨c, ccls.typeParams.map .variable, false⟩, ?_, h.instantiate hp.first hc⟩
  rw [thisClassTy, hc]
  rfl

/-- Seen from the class, two methods have as many parameters of either sort, and their
parameters have the same types when the type parameters of the first are those of the second. -/
def AgreeFrom (p : Program) (c : ClassId) (f g : FunctionId) : Prop :=
  ∃ old new acls bcls xs ys, p.SeenFrom c f old acls xs ∧ p.SeenFrom c g new bcls ys ∧
    old.params.length = new.params.length ∧ old.typeParams.length = new.typeParams.length ∧
    ∀ i d e, 0 < i → old.params[i]? = some d → new.params[i]? = some e →
      ∃ x y, p.defnAt d = .ok x ∧ p.defnAt e = .ok y ∧
        x.ty.substitute (acls.typeParams ++ old.typeParams) (xs ++ new.typeParams.map .variable) =
          y.ty.substitute bcls.typeParams ys

theorem Follows.agreeFrom (h : p.Follows old a acls x b) (hold : p.functionAt f = .ok old)
    (hkind : old.kind = .method a) (ha : p.classAt a = .ok acls) (hp : p.KeepsTypeParams)
    (hc : p.classAt c = .ok ccls) (habove : p.Above c b) : p.AgreeFrom c f x := by
  obtain ⟨new, ys, hnew, hkind', hseen, hsame⟩ := h
  obtain ⟨bcls, hb, _⟩ := id hseen
  obtain ⟨xs, hxs⟩ := exists_along habove (ccls.typeParams.map .variable)
  have hcb : p.SeenAs c b xs := ⟨ccls, hc, hxs⟩
  have hca := hcb.trans hp.first hp.apart hseen hp.complete hb
  refine ⟨old, new, acls, bcls, _, xs, hca.seenFrom hp hold hkind ha, hcb.seenFrom hp hnew hkind' hb,
    hsame.params, hsame.typeParams, fun i d e hi hd he => ?_⟩
  obtain ⟨x, y, hx, hy, hty⟩ := hsame.types hi hd he
  refine ⟨x, y, hx, hy, ?_⟩
  rw [FunctionDecl.substitute_eq_reading (hca.length hp.complete ha), Ty.substitute_eq_replace, ← hty,
    ← Ty.replace_congr fun _ _ => FunctionDecl.image_reading_self]
  exact (Ty.replace_replace x.ty fun v hv => hp.image_reading hold hkind ha hnew hkind' hb hseen
    (hcb.length hp.complete hb) hsame.typeParams rfl hi hd hx hv).symm

/-! ## Slots -/

theorem Flattened.slot_keeps (h : r.Flattened) (hshaped : r.ClassesShaped)
    (hcls : r.classAt c = .ok ccls) (hc : r.layoutOf c = some layout)
    (hbase : r.inheritedLayout ccls = .ok base) {P : FunctionId → Prop}
    (hs : base.methods[i]? = some s) (hP : P s.function)
    (hstep : ∀ {x m}, P x → m ∈ ccls.methods → r.isCompatibleOverride c x m = .ok true → P m) :
    ∃ s', layout.methods[i]? = some s' ∧ P s'.function := by
  obtain ⟨base', layout1, layout2, hbase', hinterfaces, hfields, hown⟩ := h.made_of hcls hc
  cases hbase.symm.trans hbase'
  rw [(hshaped (entryAt_eq_ok.mp hcls)).interfaces] at hinterfaces
  obtain rfl : base = layout1 := Except.ok.inj hinterfaces
  rw [← methods_addFieldSlots _ hfields] at hs
  refine Checked.foldlM_invariant (I := fun l => ∃ s', l.methods[i]? = some s' ∧ P s'.function)
    ccls.methods (foldlM_of_addOwnMethods _ hown) ⟨s, hs, hP⟩ ?_
  rintro m hm l l' ⟨s', hs', hP'⟩ hadd
  have hi := (List.getElem?_eq_some_iff.mp hs').1
  obtain ⟨slot, rfl, _, ⟨_, rfl⟩ | ⟨j, old, hold, _, hmay, rfl⟩⟩ := addMethodSlot_cases hadd
  · exact ⟨s', (List.getElem?_append_left hi).trans hs', hP'⟩
  · by_cases hij : j = i
    · subst hij
      cases hs'.symm.trans hold
      refine ⟨slot, List.getElem?_set_self hi, ?_⟩
      rcases hmay with heq | hcompatible
      · exact heq ▸ hP'
      · exact hstep hP' hm hcompatible
    · exact ⟨s', (List.getElem?_set_ne hij).trans hs', hP'⟩

/-- In a slot above the class, and in the same slot of the class, stand methods of which the
second follows the first. -/
theorem Flattened.slot_follows (h : r.Flattened) (hagree : p.AgreeButLayouts r) (hshaped : p.ClassesShaped)
    (hp : p.KeepsTypeParams) (habove : p.Above c a) (hla : r.layoutOf a = some base)
    (hs : base.methods[i]? = some s) {o : ClassId} {ocls : ClassDecl} (ho : p.Above a o)
    (hold : p.functionAt s.function = .ok old) (hkind : old.kind = .method o)
    (hocls : p.classAt o = .ok ocls) (hparams : ∀ d ∈ old.params, ∃ defn, p.defnAt d = .ok defn) :
    ∀ {layout}, r.layoutOf c = some layout → ∃ s', layout.methods[i]? = some s' ∧
      ∃ b, p.Above c b ∧ p.Follows old o ocls s'.function b := by
  induction habove using Relation.ReflTransGen.head_induction_on with
  | refl =>
    intro layout hc
    cases hla.symm.trans hc
    exact ⟨s, hs, o, ho, .refl hold hkind hocls hparams⟩
  | @head c k hck _ ih =>
    intro layout hc
    obtain ⟨ccls, st, hccls, hst, rfl⟩ := id hck
    obtain ⟨_, hcls⟩ := hagree.sees.classAt hccls
    obtain ⟨inherited, _, _, hinherited, _⟩ := h.made_of hcls hc
    obtain ⟨s', hs', b, hb, hfollows⟩ := ih (layoutOf_of_inheritedLayout hst hinherited)
    refine h.slot_keeps (hagree.classesShaped hshaped) hcls hc hinherited
      (P := fun x => ∃ b, p.Above c b ∧ p.Follows old o ocls x b) hs' ⟨b, .head hck hb, hfollows⟩ ?_
    rintro x m ⟨b, hb, hx⟩ hm hcompatible
    refine ⟨c, .refl, hx.step hold hkind hocls hp hb hccls
      ((hshaped (entryAt_eq_ok.mp hccls)).methods m hm) ?_⟩
    exact hagree.symm.sees.isCompatibleOverride trivial trivial hcompatible

/-! ## Arguments given later

A step that adds a class names its superclass, before the class has type parameters. So that
`B<T>` can extend `A<T>`, arguments may be given once all steps are done. -/

def givenArgs (given : ClassId → Option (List Ty)) (cls : ClassDecl) : ClassDecl :=
  { cls with supertype := cls.supertype.map fun st => { st with args := (given cls.id).getD st.args } }

def retype (p : Program) (given : ClassId → Option (List Ty)) : Program :=
  { p with classes := p.classes.map (givenArgs given) }

/-- What is given is said with the type parameters of the class. -/
def OwnArgs (p : Program) (given : ClassId → Option (List Ty)) : Prop :=
  ∀ cls ∈ p.classes.toList, ∀ args ∈ given cls.id, ∀ m ∈ mentionsOfTys args, OnlyOf cls.typeParams m

section

variable {given : ClassId → Option (List Ty)}

theorem classes_retype (h : (p.retype given).classes[i]? = some cls) :
    ∃ decl, p.classes[i]? = some decl ∧ givenArgs given decl = cls := by
  rw [retype, Array.getElem?_map] at h
  exact Option.map_eq_some_iff.mp h

theorem classAt_retype (h : p.classes[c.index]? = some cls) :
    (p.retype given).classAt c = .ok (givenArgs given cls) := by
  refine classAt_eq ?_
  rw [retype, Array.getElem?_map, h]
  rfl

theorem ClassesShaped.retype (h : p.ClassesShaped) : (p.retype given).ClassesShaped := by
  intro i cls hcls
  obtain ⟨decl, hdecl, rfl⟩ := classes_retype hcls
  obtain ⟨hsupertype, hinterfaces, hfields, hmethods, hconstructors, hinitializer⟩ := h hdecl
  refine ⟨fun st hst => ?_, hinterfaces, hfields, hmethods, hconstructors, hinitializer⟩
  obtain ⟨st', hst', rfl⟩ := Option.map_eq_some_iff.mp hst
  exact hsupertype st' hst'

theorem Listed.of_retype {j : Nat} (h : (p.retype given).Listed j v) : p.Listed j v := by
  refine h.imp ?_ id
  rintro ⟨cls, hcls, hv⟩
  obtain ⟨decl, hdecl, rfl⟩ := classes_retype hcls
  exact ⟨decl, hdecl, hv⟩

theorem TypeParamsApart.retype (h : p.TypeParamsApart) (hgiven : p.OwnArgs given) :
    (p.retype given).TypeParamsApart where
  listed hlisted := h.listed hlisted.of_retype
  used {i cls st t} hcls hst ht hnot := by
    obtain ⟨decl, hdecl, rfl⟩ := classes_retype hcls
    obtain ⟨st', hst', rfl⟩ := Option.map_eq_some_iff.mp hst
    dsimp only at ht
    cases hargs : given decl.id with
    | none =>
      rw [hargs] at ht
      obtain ⟨hlt, hlater⟩ := h.used hdecl hst' ht hnot
      exact ⟨hlt, fun hle hlisted => hlater hle hlisted.of_retype⟩
    | some args =>
      rw [hargs] at ht
      have hmem := Array.mem_toList_iff.mpr (Array.mem_of_getElem? hdecl)
      exact absurd (of_decide_eq_true (hgiven decl hmem args hargs _ ht)) hnot
  nodup hcls := by
    obtain ⟨decl, hdecl, rfl⟩ := classes_retype hcls
    exact show decl.typeParams.Nodup from h.nodup hdecl
  own hf howner := by
    refine ⟨(h.own hf howner).1, fun cls hcls => ?_⟩
    obtain ⟨decl, hdecl, rfl⟩ := classes_retype hcls
    exact (h.own hf howner).2 decl hdecl

end

end Program

open Program in
/-- Each method in the tables of a class agrees with those that its slot has above the class. -/
theorem flattenClasses_agreeFrom {given : ClassId → Option (List Ty)} (hp : Constructed p)
    (hgiven : p.OwnArgs given) (hcomplete : (p.retype given).ArgsComplete)
    (hscoped : (p.retype given).ParamsScoped) (h : Pass.flattenClasses.Gives (p.retype given) () r)
    (hc : c.index < p.classes.size) (habove : (p.retype given).Above c a) :
    ∃ own above, r.layoutOf c = some own ∧ r.layoutOf a = some above ∧
      ∀ (i : Nat) (s : MethodSlot), above.methods[i]? = some s → ∃ s' : MethodSlot,
        own.methods[i]? = some s' ∧ (p.retype given).AgreeFrom c s.function s'.function := by
  have hconsistent := hp.source.consistent
  have hids : (p.retype given).ClassesNumbered := by
    intro i cls hcls
    obtain ⟨decl, hdecl, rfl⟩ := classes_retype hcls
    exact (hconsistent.cls hdecl).id
  have hshaped : (p.retype given).ClassesShaped := ClassesShaped.retype fun _ _ hcls => hp.shaped.cls hcls
  have hkeeps : (p.retype given).KeepsTypeParams := ⟨hids,
    fun _ _ hcls st hst => (hshaped hcls).supertype st hst, hp.typeParamsApart.retype hgiven, hcomplete, hscoped⟩
  obtain ⟨hagree, hflat⟩ := flattened_of_flattenClasses h hids
  have hsize : r.classes.size = p.classes.size := by rw [hagree.size, retype, Array.size_map]
  obtain ⟨xs, hxs⟩ := exists_along habove []
  have hle : a.index ≤ c.index := Along.le hkeeps.first hxs
  obtain ⟨own, hown, _⟩ := hflat.flat c (hsize ▸ hc)
  obtain ⟨above, habove', _⟩ := hflat.flat a (hsize ▸ Nat.lt_of_le_of_lt hle hc)
  refine ⟨own, above, hown, habove', fun i s hs => ?_⟩
  obtain ⟨o, ho, hkind⟩ := hflat.owner_above (hagree.classesShaped hshaped) habove' s (List.mem_of_getElem? hs)
  replace ho : (p.retype given).Above a o := by
    refine Relation.ReflTransGen.mono ?_ _ _ ho
    rintro _ _ ⟨cls, st, hcls, hst, heq⟩
    obtain ⟨_, hcls'⟩ := hagree.symm.sees.classAt hcls
    exact ⟨_, st, hcls', hst, heq⟩
  obtain ⟨old, hold, hkind⟩ := hasKind_iff.mp hkind
  rw [hagree.functions] at hold
  obtain ⟨ocls, hocls⟩ := exists_of_lt ((hconsistent.function hold).owner (c := o) (by rw [hkind]; rfl))
  have hparams : ∀ d ∈ old.params, ∃ defn, (p.retype given).defnAt d = .ok defn := fun d hd => by
    obtain ⟨defn, hdefn, _⟩ := (hconsistent.function hold).params d hd
    exact ⟨defn, defnAt_eq hdefn⟩
  obtain ⟨s', hs', b, hb, hfollows⟩ := hflat.slot_follows hagree hshaped hkeeps habove habove' hs ho
    (functionAt_eq hold) hkind (classAt_retype hocls) hparams hown
  obtain ⟨cls, hcls⟩ := exists_of_lt hc
  exact ⟨s', hs', hfollows.agreeFrom (functionAt_eq hold) hkind (classAt_retype hocls) hkeeps (classAt_retype hcls) hb⟩

/-! A method that is overridden twice: `A<T> { m<U>(x: T, y: U) }`, `B<S> : A<S> { m<V>(x: S, y: V) }`
and `C : B<I64> { m<W>(x: I64, y: W) }`. -/

def Program.overriddenTwice : Program :=
  .built [
    .cls "A", .classTypeParam ⟨4⟩ "T", .method ⟨4⟩ "m" .unit, .functionTypeParam ⟨10⟩ "U",
    .param ⟨10⟩ "x" (.variable ⟨0⟩) false, .param ⟨10⟩ "y" (.variable ⟨1⟩) false,
    .subclass "B" ⟨⟨4⟩, [], false⟩, .classTypeParam ⟨5⟩ "S", .method ⟨5⟩ "m" .unit,
    .functionTypeParam ⟨11⟩ "V", .param ⟨11⟩ "x" (.variable ⟨2⟩) false,
    .param ⟨11⟩ "y" (.variable ⟨3⟩) false,
    .subclass "C" ⟨⟨5⟩, [.i64], false⟩, .method ⟨6⟩ "m" .unit, .functionTypeParam ⟨12⟩ "W",
    .param ⟨12⟩ "x" .i64 false, .param ⟨12⟩ "y" (.variable ⟨4⟩) false]

def ClassTy.ownArgs (c : ClassId) : Option (List Ty) := if c = ⟨5⟩ then some [.variable ⟨2⟩] else none

open Program Pass in
theorem flattenClasses_agreeFrom_overriddenTwice :
    let p := overriddenTwice.retype ClassTy.ownArgs
    Constructed overriddenTwice ∧ overriddenTwice.OwnArgs ClassTy.ownArgs ∧ p.ArgsComplete ∧
      p.ParamsScoped ∧ (∃ r, flattenClasses.Gives p () r) ∧ p.Above ⟨6⟩ ⟨4⟩ ∧ p.AgreeFrom ⟨6⟩ ⟨10⟩ ⟨12⟩ := by
  intro p
  have hp : Constructed overriddenTwice := .built (by decide +kernel)
  have hown : overriddenTwice.OwnArgs ClassTy.ownArgs := by unfold OwnArgs; decide +kernel
  have hcomplete : p.ArgsComplete := by unfold ArgsComplete; decide +kernel
  have hscoped : p.ParamsScoped := by unfold ParamsScoped; decide +kernel
  have hview : flattenClasses.view? (fun r => ((r.layoutOf ⟨4⟩).bind (·.methods[2]?.map MethodSlot.function),
      (r.layoutOf ⟨6⟩).bind (·.methods[2]?.map MethodSlot.function))) p =
      some (some ⟨10⟩, some ⟨12⟩) := by decide +kernel
  obtain ⟨hflat, hview⟩ := gives_of_view _ _ hview
  obtain ⟨hinherited, hoverriding⟩ := Prod.mk.inj hview
  have hextends : ∀ {c b}, (p.classes[c.index]?.bind ClassDecl.supertype).map ClassTy.cls = some b →
      p.Extends c b := by
    intro c b h
    obtain ⟨st, hst, rfl⟩ := Option.map_eq_some_iff.mp h
    obtain ⟨cls, hcls, hst⟩ := Option.bind_eq_some_iff.mp hst
    exact ⟨cls, st, classAt_eq hcls, hst, rfl⟩
  have habove : p.Above ⟨6⟩ ⟨4⟩ :=
    .head (b := ⟨5⟩) (hextends (by decide +kernel)) (.single (hextends (by decide +kernel)))
  refine ⟨hp, hown, hcomplete, hscoped, ⟨_, hflat⟩, habove, ?_⟩
  obtain ⟨own, above, hlayout, hlayout', hagree⟩ :=
    flattenClasses_agreeFrom hp hown hcomplete hscoped hflat (by decide +kernel) habove
  rw [hlayout'] at hinherited
  rw [hlayout] at hoverriding
  obtain ⟨s, hs, hsame⟩ := Option.map_eq_some_iff.mp hinherited
  obtain ⟨s', hs', hfrom⟩ := hagree _ s hs
  obtain ⟨s'', hs'', hsame'⟩ := Option.map_eq_some_iff.mp hoverriding
  cases hs'.symm.trans hs''
  rw [← hsame, ← hsame']
  exact hfrom

end StackBackend
