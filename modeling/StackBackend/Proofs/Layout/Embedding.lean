import StackBackend.Proofs.Layout.SlotNames
import StackBackend.Proofs.Program.Shape

/-! Classes that stay as they are while a program grows have the tables they had. A class
comes after its superclass, so a walk up the hierarchy ends before its steps run out, and
more classes do not change where it ends. -/

namespace StackBackend

open Checked List

variable {layout layout' : ClassLayout} {method : FunctionId} {cls : ClassDecl} {st : ClassTy}
  {d : DefnId} {name owner : String} {steps : Nat} {b : Bool}

variable {p q : Program} {c : ClassId}

namespace Program

/-- All that flattening the classes of the first program looks at is the same in the second
one, but for tables. Functions that are no members of a class may become members. -/
structure Embeds (p q : Program) : Prop where
  defns : ∀ {i : Nat} {d : Definition}, p.definitions[i]? = some d →
    ∃ d', q.definitions[i]? = some d' ∧ d'.name = d.name ∧ d'.ty = d.ty
  functions : ∀ {i : Nat} {f : FunctionDecl}, p.functions[i]? = some f →
    ∃ f', q.functions[i]? = some f' ∧ f'.name = f.name ∧ f'.returnTy = f.returnTy ∧
      (f.kind.owner? ≠ none → f'.kind = f.kind ∧ f'.params = f.params ∧ f'.typeParams = f.typeParams)
  classes : ∀ {i : Nat} {cls : ClassDecl}, p.classes[i]? = some cls →
    ∃ layout, q.classes[i]? = some { cls with layout }

/-- Classes come after their superclasses and list members of their own. -/
def ClassesShaped (p : Program) : Prop :=
  ∀ ⦃i : Nat⦄ ⦃cls : ClassDecl⦄, p.classes[i]? = some cls → p.ClassShaped i cls

namespace Embeds

theorem trans {r : Program} (h : p.Embeds q) (h' : q.Embeds r) : p.Embeds r where
  defns hd := by
    obtain ⟨d', hd', hname, hty⟩ := h.defns hd
    obtain ⟨d'', hd'', hname', hty'⟩ := h'.defns hd'
    exact ⟨d'', hd'', hname'.trans hname, hty'.trans hty⟩
  functions hf := by
    obtain ⟨f', hf', hname, hty, hmember⟩ := h.functions hf
    obtain ⟨f'', hf'', hname', hty', hmember'⟩ := h'.functions hf'
    refine ⟨f'', hf'', hname'.trans hname, hty'.trans hty, fun howner => ?_⟩
    obtain ⟨hkind, hparams, htypeParams⟩ := hmember howner
    obtain ⟨hkind', hparams', htypeParams'⟩ := hmember' (hkind ▸ howner)
    exact ⟨hkind'.trans hkind, hparams'.trans hparams, htypeParams'.trans htypeParams⟩
  classes hc := by
    obtain ⟨layout, hc'⟩ := h.classes hc
    obtain ⟨layout', hc''⟩ := h'.classes hc'
    exact ⟨layout', hc''⟩

section

variable (h : p.Embeds q)
include h

theorem classes_le : p.classes.size ≤ q.classes.size :=
  size_le_of_kept fun hcls => let ⟨_, hcls'⟩ := h.classes hcls; ⟨_, hcls'⟩

theorem defnAt {defn : Definition} (hd : p.defnAt d = .ok defn) :
    ∃ defn', q.defnAt d = .ok defn' ∧ defn'.name = defn.name ∧ defn'.ty = defn.ty := by
  obtain ⟨defn', hdefn', hsame⟩ := h.defns (entryAt_eq_ok.mp hd)
  exact ⟨defn', defnAt_eq hdefn', hsame⟩

theorem classAt (hc : p.classAt c = .ok cls) : ∃ layout, q.classAt c = .ok { cls with layout } := by
  obtain ⟨layout, hcls⟩ := h.classes (entryAt_eq_ok.mp hc)
  exact ⟨layout, classAt_eq hcls⟩

end

def IsMember (p : Program) (f : FunctionId) : Prop :=
  ∃ decl, p.functions[f.index]? = some decl ∧ decl.kind.owner? ≠ none

theorem sees (h : p.Embeds q) (hshaped : p.ClassesShaped) : p.Sees q (IsMember p) where
  defnAt := h.defnAt
  functionAt {f decl} hdecl := by
    obtain ⟨decl', hdecl', hname, hty, hmember⟩ := h.functions (entryAt_eq_ok.mp hdecl)
    refine ⟨decl', functionAt_eq hdecl', hname, hty, ?_⟩
    rintro ⟨_, hdecl0, howner⟩
    cases hdecl0.symm.trans (entryAt_eq_ok.mp hdecl)
    exact hmember howner
  classAt := h.classAt
  reach c := by
    have hle := h.classes_le
    exact .inr ⟨fun _ _ hcls st hst => (hshaped hcls).supertype st hst,
      ⟨by omega, fun _ => by omega⟩, by omega, fun _ => by omega⟩

end Embeds

theorem ClassesShaped.members (hshaped : p.ClassesShaped) (hcls : p.classAt c = .ok cls) :
    ∀ m ∈ cls.methods, Embeds.IsMember p m := by
  intro m hm
  obtain ⟨decl, hdecl, hkind⟩ := hasKind_iff.mp ((hshaped (entryAt_eq_ok.mp hcls)).methods m hm)
  exact ⟨decl, hdecl, by rw [hkind]; nofun⟩

theorem AgreeButLayouts.embeds (h : p.AgreeButLayouts q) : p.Embeds q where
  defns {i d} hd := ⟨d, by rw [h.definitions]; exact hd, rfl, rfl⟩
  functions {i f} hf := ⟨f, by rw [h.functions]; exact hf, rfl, rfl, fun _ => ⟨rfl, rfl, rfl⟩⟩
  classes {i cls} hcls := by
    obtain ⟨layout, hq⟩ := h.sees.classAt (classAt_eq (c := ⟨i⟩) hcls)
    exact ⟨layout, entryAt_eq_ok.mp hq⟩

theorem AgreeButLayouts.classesShaped (h : p.AgreeButLayouts q) (hp : p.ClassesShaped) :
    q.ClassesShaped := by
  intro i cls hcls
  obtain ⟨layout, hcls0⟩ := h.symm.embeds.classes hcls
  exact { (hp hcls0).of_keeps (keepsKinds_same h.functions) (declaredIn_same h.definitions) with }

theorem Flattened.methods_cases (h : p.Flattened) (hshaped : p.ClassesShaped)
    (hcls : p.classAt c = .ok cls) (hc : p.layoutOf c = some layout) :
    ∃ base, p.inheritedLayout cls = .ok base ∧ ∀ slot ∈ layout.methods,
      (∃ old ∈ base.methods, old.function = slot.function) ∨ slot.function ∈ cls.methods := by
  obtain ⟨base, layout1, layout2, hbase, hinterfaces, hfields, hown⟩ := h.made_of hcls hc
  rw [(hshaped (entryAt_eq_ok.mp hcls)).interfaces] at hinterfaces
  obtain rfl : base = layout1 := Except.ok.inj hinterfaces
  refine ⟨base, hbase, members_addMethodSlots _ (P := fun m =>
    (∃ old ∈ base.methods, old.function = m) ∨ m ∈ cls.methods) ?_ (fun m hm => .inr hm)
    (foldlM_of_addOwnMethods _ hown)⟩
  rw [methods_addFieldSlots _ hfields]
  exact fun slot hslot => .inl ⟨slot, hslot, rfl⟩

theorem Flattened.owner_above (h : p.Flattened) (hshaped : p.ClassesShaped)
    (hc : p.layoutOf c = some layout) :
    ∀ slot ∈ layout.methods, ∃ b, p.Above c b ∧ p.HasKind slot.function (.method b) := by
  refine h.induction (P := fun c layout => ∀ slot ∈ layout.methods,
    ∃ b, p.Above c b ∧ p.HasKind slot.function (.method b)) (fun hcls hc hbase hinherited slot hslot => ?_) hc
  obtain ⟨base, hbase', hmethods⟩ := h.methods_cases hshaped hcls hc
  cases hbase.symm.trans hbase'
  rcases hmethods slot hslot with ⟨old, hold, heq⟩ | hown
  · rcases hinherited with rfl | ⟨k, hk, ih⟩
    · exact absurd hold not_mem_nil
    · obtain ⟨b, hb, hkind⟩ := ih old hold
      exact ⟨b, .head hk hb, heq ▸ hkind⟩
  · exact ⟨_, .refl, (hshaped (entryAt_eq_ok.mp hcls)).methods _ hown⟩

theorem Flattened.members (h : p.Flattened) (hshaped : p.ClassesShaped)
    (hc : p.layoutOf c = some layout) : ∀ slot ∈ layout.methods, Embeds.IsMember p slot.function := by
  intro slot hslot
  obtain ⟨b, _, hkind⟩ := h.owner_above hshaped hc slot hslot
  obtain ⟨decl, hdecl, hkind⟩ := hasKind_iff.mp hkind
  exact ⟨decl, hdecl, by rw [hkind]; nofun⟩

theorem Flattened.rootMethods (h : p.Flattened) (hshaped : p.ClassesShaped)
    (hc : p.layoutOf objectClass = some layout) :
    ∀ slot ∈ layout.methods, p.HasKind slot.function (.method objectClass) := by
  intro slot hslot
  obtain ⟨b, hb, hkind⟩ := h.owner_above hshaped hc slot hslot
  rcases hb.cases_head with rfl | ⟨_, ⟨cls, st, hcls, hst, _⟩, _⟩
  · exact hkind
  · exact absurd ((hshaped (entryAt_eq_ok.mp hcls)).supertype st hst) (Nat.not_lt_zero _)

/-! ## Order -/

def BasesFirst (p : Program) : Prop :=
  ∀ ⦃i : Nat⦄ ⦃cls : ClassDecl⦄, p.classes[i]? = some cls → ∀ b ∈ bases cls, b.index < i

theorem ClassesShaped.basesFirst (h : p.ClassesShaped) : p.BasesFirst := by
  intro i cls hcls b hb
  have hshaped := h hcls
  rw [bases, hshaped.interfaces, append_nil, Option.mem_toList, Option.map_eq_some_iff] at hb
  obtain ⟨st, hst, rfl⟩ := hb
  exact hshaped.supertype st hst

def classesBelow (n : Nat) : List ClassId := (List.range n).map Ref.mk

theorem mem_classesBelow {n : Nat} : c ∈ classesBelow n ↔ c.index < n := by
  rw [classesBelow, mem_map]
  constructor
  · rintro ⟨i, hi, rfl⟩
    exact mem_range.mp hi
  · intro h
    exact ⟨c.index, mem_range.mpr h, rfl⟩

theorem classesBelow_succ (n : Nat) : classesBelow (n + 1) = classesBelow n ++ [⟨n⟩] := by
  rw [classesBelow, range_succ, map_append]
  rfl

section

variable (hfirst : p.BasesFirst)
include hfirst

theorem visitClass_next {i : Nat} (hi : i < p.classes.size) :
    p.visitClass (steps + 2) [] (classesBelow i) ⟨i⟩ = .ok (classesBelow (i + 1)) := by
  obtain ⟨cls, hcls⟩ := exists_of_lt hi
  have hvisited : ∀ bs : List ClassId, (∀ b ∈ bs, b.index < i) →
      bs.foldlM (p.visitClass (steps + 1) [⟨i⟩]) (classesBelow i) = .ok (classesBelow i) := by
    intro bs hbs
    induction bs with
    | nil => rfl
    | cons b rest ih =>
      obtain ⟨hb, hrest⟩ := forall_mem_cons.mp hbs
      obtain ⟨base, hbase⟩ := exists_of_lt (hb.trans hi)
      refine bind_eq_ok.mpr ⟨classesBelow i, ?_, ih hrest⟩
      refine bind_eq_ok.mpr ⟨base, classAt_eq hbase, ?_⟩
      rw [if_pos (mem_classesBelow.mpr hb)]
      rfl
  refine bind_eq_ok.mpr ⟨cls, classAt_eq (c := ⟨i⟩) hcls, ?_⟩
  rw [if_neg fun hm => Nat.lt_irrefl _ (mem_classesBelow.mp hm), if_neg not_mem_nil]
  refine bind_eq_ok.mpr ⟨classesBelow i, hvisited _ (hfirst hcls), ?_⟩
  rw [classesBelow_succ]
  rfl

theorem visitClasses_next {steps : Nat} (n : Nat) : ∀ {i : Nat}, i + n ≤ p.classes.size →
      ((List.range' i n).map Ref.mk).foldlM (p.visitClass (steps + 2) []) (classesBelow i) =
        .ok (classesBelow (i + n)) := by
  induction n with
  | zero => intro i _; rfl
  | succ n ih =>
    intro i hle
    rw [List.range'_succ, map_cons, List.foldlM_cons]
    refine bind_eq_ok.mpr ⟨_, visitClass_next hfirst (by omega), ?_⟩
    rw [ih (by omega)]
    exact congrArg _ (congrArg _ (by omega))

theorem inheritanceOrder_of_basesFirst (hids : p.ClassesNumbered) :
    p.inheritanceOrder = .ok (classesBelow p.classes.size) := by
  have hlist : p.classes.toList.map ClassDecl.id = (List.range' 0 p.classes.size).map Ref.mk := by
    refine List.ext_getElem? fun i => ?_
    rw [List.getElem?_map, List.getElem?_map, Array.getElem?_toList]
    by_cases hi : i < p.classes.size
    · obtain ⟨cls, hcls⟩ := exists_of_lt hi
      rw [hcls, List.getElem?_range' hi]
      simp [hids i cls hcls]
    · rw [Array.getElem?_eq_none (Nat.le_of_not_lt hi), List.getElem?_eq_none (by simp; omega)]
      rfl
  unfold inheritanceOrder
  rw [hlist]
  cases hsize : p.classes.size with
  | zero => rfl
  | succ n =>
    have hall := @visitClasses_next p hfirst n (n + 1) 0 (by omega)
    rw [Nat.zero_add] at hall
    exact hall

end

end Program

namespace Pass

open Program

/-- Every class gets tables if each gets them once those before it have theirs. -/
theorem flattenClasses_ensures {P : Nat → ClassLayout → Prop} (hids : q.ClassesNumbered)
    (hfirst : q.BasesFirst)
    (hstep : ∀ {i r}, i < q.classes.size → q.AgreeButLayouts r →
      (∀ j < i, ∃ layout, r.layoutOf ⟨j⟩ = some layout ∧ P j layout) →
      ∃ layout, r.flattenClass ⟨i⟩ = .ok layout ∧ P i layout) :
    ∃ r, flattenClasses.Gives q () r := by
  suffices hall : ∀ n ≤ q.classes.size, ((classesBelow n).forM Pass.flattenClass).Ensures q fun _ r =>
      q.AgreeButLayouts r ∧ ∀ j < n, ∃ layout, r.layoutOf ⟨j⟩ = some layout ∧ P j layout by
    obtain ⟨v, r, hr, _⟩ := hall _ le_rfl
    exact ⟨r, gives_ask_bind.mpr ⟨_, inheritanceOrder_of_basesFirst hfirst hids, hr⟩⟩
  intro n
  induction n with
  | zero => exact fun _ => .pure ⟨.refl q, fun _ hj => absurd hj (Nat.not_lt_zero _)⟩
  | succ n ih =>
    intro hn
    obtain ⟨v, r, hr, hagree, htables⟩ := ih (Nat.le_of_succ_le hn)
    obtain ⟨layout, hflat, hP⟩ := hstep hn hagree htables
    have hlt : n < r.classes.size := by rw [hagree.size]; exact hn
    refine ⟨(), r.setLayout ⟨n⟩ layout, ?_, hagree.trans (agree_setLayout r ⟨n⟩ layout), fun j hj => ?_⟩
    · rw [classesBelow_succ, List.forM_eq_forM, List.forM_append]
      refine gives_bind.mpr ⟨v, r, hr, gives_bind.mpr ⟨(), _, gives_flattenClass.mpr
        ⟨layout, hflat, hlt, rfl⟩, gives_pure.mpr ⟨rfl, rfl⟩⟩⟩
    · rw [layoutOf_setLayout hlt]
      by_cases heq : j = n
      · subst heq
        exact ⟨layout, if_pos rfl, hP⟩
      · obtain ⟨layout', hlayout', hP'⟩ := htables j (by omega)
        exact ⟨layout', by rw [if_neg fun h => heq (congrArg Ref.index h)]; exact hlayout', hP'⟩

theorem flattenClasses_grown {p0 : Program} (hflat : flattenClasses.Gives p () p0)
    (hshaped : p.ClassesShaped) (hids : p.ClassesNumbered) (h : p.Embeds q)
    (hids' : q.ClassesNumbered) (hfirst : q.BasesFirst)
    (hnew : ∀ {i r}, p.classes.size ≤ i → i < q.classes.size → q.AgreeButLayouts r →
      (∀ c : ClassId, c.index < p.classes.size → r.layoutOf c = p0.layoutOf c) →
      ∃ layout, r.flattenClass ⟨i⟩ = .ok layout) : ∃ r, flattenClasses.Gives q () r := by
  obtain ⟨hagree0, hflattened⟩ := flattened_of_flattenClasses hflat hids
  have hshaped0 := hagree0.classesShaped hshaped
  refine flattenClasses_ensures (P := fun i layout =>
    i < p.classes.size → p0.layoutOf ⟨i⟩ = some layout) hids' hfirst fun {i r} hi hagree htables => ?_
  have hlayouts : ∀ {c : ClassId}, c.index < i → c.index < p.classes.size →
      r.layoutOf c = p0.layoutOf c := by
    intro c hc hold
    obtain ⟨layout, hlayout, hP⟩ := htables c.index hc
    exact hlayout.trans (hP hold).symm
  by_cases hold : i < p.classes.size
  · obtain ⟨layout, hlayout, hflat⟩ := hflattened.flat ⟨i⟩ (by rw [hagree0.size]; exact hold)
    refine ⟨layout, ?_, fun _ => hlayout⟩
    have hembeds : p0.Embeds r := (hagree0.symm.embeds.trans h).trans hagree.embeds
    refine (hembeds.sees hshaped0).flattenClass (fun hcls => hshaped0.members hcls)
      (fun {cls base} hcls hbase => ⟨?_, inheritedLayout_same (fun st hst => ?_) hbase⟩) hflat
    · rcases inheritedLayout_cases hcls hbase with rfl | ⟨_, _, hlayout⟩
      · exact forall_mem_nil _
      · exact hflattened.members hshaped0 hlayout
    · have hlt := (hshaped0 (entryAt_eq_ok.mp hcls)).supertype st hst
      exact hlayouts hlt (hlt.trans hold)
  · obtain ⟨layout, hlayout⟩ := hnew (Nat.le_of_not_lt hold) hi hagree fun c hc =>
      hlayouts (hc.trans_le (Nat.le_of_not_lt hold)) hc
    exact ⟨layout, hlayout, fun hlt => absurd hlt hold⟩

end Pass

end StackBackend
