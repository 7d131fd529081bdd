import Mathlib.Logic.Relation
import StackBackend.Proofs.Layout.Flattened

/-! Field tables of flattened classes. The table of a superclass is a prefix of the
table of a class, so a field that a class declares is at the same place in all classes
below it. -/

namespace StackBackend

open Checked

variable {s : FieldSlot} {layout layout' : ClassLayout} {cls : ClassDecl} {p : Program} {c b : ClassId}

namespace Program

def Extends (p : Program) (c b : ClassId) : Prop :=
  ∃ cls st, p.classAt c = .ok cls ∧ cls.supertype = some st ∧ st.cls = b

/-- A class and those on its superclass chain. -/
def Above (p : Program) : ClassId → ClassId → Prop := Relation.ReflTransGen p.Extends

/-- A class whose members go into the table of another one: itself, a class above, or an
interface of one of these. -/
def Supplies (p : Program) (b c : ClassId) : Prop :=
  ∃ a, p.Above c a ∧ (b = a ∨ ∃ cls, p.classAt a = .ok cls ∧ b ∈ cls.interfaces)

theorem Supplies.below {a : ClassId} (h : p.Supplies b a) (ha : p.Above c a) : p.Supplies b c := by
  obtain ⟨above, habove, hend⟩ := h
  exact ⟨above, ha.trans habove, hend⟩

section

variable {sup : ClassId}

theorem isSubclassWithin_succ {steps : Nat} :
    p.isSubclassWithin sup (steps + 1) c = .ok true ↔ c = sup ∨ ∃ cls, p.classAt c = .ok cls ∧
      (sup ∈ cls.interfaces ∨ ∃ st, cls.supertype = some st ∧
        p.isSubclassWithin sup steps st.cls = .ok true) := by
  rw [isSubclassWithin]
  split <;> rename_i hne
  · exact ⟨fun _ => .inl hne, fun _ => rfl⟩
  · rw [bind_eq_ok, or_iff_right hne]
    refine exists_congr fun cls => and_congr_right fun _ => ?_
    split <;> rename_i hmem
    · exact ⟨fun _ => .inl hmem, fun _ => rfl⟩
    · rw [or_iff_right hmem]
      cases cls.supertype <;> simp [pure, Except.pure]

theorem supplies_of_isSubclassWithin (steps : Nat) :
    ∀ {c}, p.isSubclassWithin sup steps c = .ok true → p.Supplies sup c := by
  induction steps with
  | zero => nofun
  | succ steps ih =>
    intro c h
    rcases isSubclassWithin_succ.mp h with rfl | ⟨cls, hcls, hmem | ⟨st, hst, h⟩⟩
    · exact ⟨c, .refl, .inl rfl⟩
    · exact ⟨c, .refl, .inr ⟨cls, hcls, hmem⟩⟩
    · exact (ih h).below (.single ⟨cls, st, hcls, hst, rfl⟩)

end

/-- The superclass of an instantiated class, with the type arguments that it is handed. -/
def handed (cls : ClassDecl) (st : ClassTy) (args : List Ty) : ClassTy :=
  ⟨st.cls, st.args.map (·.substitute cls.typeParams args), false⟩

theorem instantiateWithin_succ {n : Nat} {ty : ClassTy} {found : List Ty} :
    p.instantiateWithin b (n + 1) ty = .ok (some found) ↔
    ty.cls = b ∧ ty.args = found ∨ ty.cls ≠ b ∧ ∃ cls st, p.classAt ty.cls = .ok cls ∧
      cls.supertype = some st ∧ p.instantiateWithin b n (handed cls st ty.args) = .ok (some found) := by
  rw [instantiateWithin]
  split <;> rename_i hne
  · simp [hne, pure, Except.pure]
  · rw [bind_eq_ok]
    simp only [hne, false_and, false_or, ne_eq, not_false_eq_true, true_and, exists_and_left]
    refine exists_congr fun cls => and_congr_right fun _ => ?_
    cases cls.supertype with
    | none => simp [pure, Except.pure]
    | some st => simp [handed]

theorem inheritedLayout_cases {base : ClassLayout} (hcls : p.classAt c = .ok cls)
    (h : p.inheritedLayout cls = .ok base) :
    base = .empty ∨ ∃ b, p.Extends c b ∧ p.layoutOf b = some base := by
  cases hst : cls.supertype with
  | none =>
    unfold inheritedLayout at h
    rw [hst] at h
    cases h
    exact .inl rfl
  | some st => exact .inr ⟨st.cls, ⟨cls, st, hcls, hst, rfl⟩, layoutOf_of_inheritedLayout hst h⟩

def FieldsOwned (p : Program) : Prop :=
  ∀ {c cls}, p.classAt c = .ok cls → ∀ f ∈ cls.fields,
    ∃ d, p.defnAt f.defn = .ok d ∧ d.kind = .field c

theorem AgreeButLayouts.fieldsOwned {q : Program} (h : p.AgreeButLayouts q)
    (hp : p.FieldsOwned) : q.FieldsOwned := by
  intro c cls hcls field hfield
  rw [h.defnAt]
  obtain ⟨layout, hcls0⟩ := h.symm.sees.classAt hcls
  exact hp hcls0 field hfield

structure FlattensTo (p0 p : Program) : Prop where
  gives : Pass.flattenClasses.Gives p0 () p
  numbered : p0.ClassesNumbered
  fieldsOwned : p0.FieldsOwned

namespace Flattened

variable (h : p.Flattened)
include h

/-- The steps in which the tables of a class are made. -/
theorem made_of (hcls : p.classAt c = .ok cls) (hc : p.layoutOf c = some layout) :
    ∃ base layout1 layout2, p.inheritedLayout cls = .ok base ∧
      cls.interfaces.foldlM (p.addInterface c) base = .ok layout1 ∧
      (cls.fields.map FieldDecl.defn).foldlM (p.addFieldSlot c cls.name) layout1 = .ok layout2 ∧
      p.addOwnMethods cls c [] layout2 cls.methods = .ok layout := by
  obtain ⟨layout', hlayout', hflat⟩ := h.flat c (lt_size_of_entryAt hcls)
  cases hc.symm.trans hlayout'
  obtain ⟨cls', hcls', hflat⟩ := bind_eq_ok.mp hflat
  cases hcls.symm.trans hcls'
  obtain ⟨base, hbase, hflat⟩ := bind_eq_ok.mp hflat
  obtain ⟨layout1, hinterfaces, hflat⟩ := bind_eq_ok.mp hflat
  obtain ⟨layout2, hfields, hmethods⟩ := bind_eq_ok.mp hflat
  exact ⟨base, layout1, layout2, hbase, hinterfaces, hfields, hmethods⟩

/-- A property that passes from the tables of a superclass, or from empty ones, to those of a
class. -/
theorem induction {P : ClassId → ClassLayout → Prop}
    (step : ∀ {c cls layout base}, p.classAt c = .ok cls → p.layoutOf c = some layout →
      p.inheritedLayout cls = .ok base →
      (base = .empty ∨ ∃ b, p.Extends c b ∧ P b base) → P c layout)
    (hc : p.layoutOf c = some layout) : P c layout := by
  obtain ⟨order, hordered, hall⟩ := h.ordered
  have hsize : c.index < p.classes.size := by
    obtain ⟨cls, hcls, _⟩ := Option.bind_eq_some_iff.mp hc
    exact (Array.getElem?_eq_some_iff.mp hcls).1
  refine hordered.induction (P := fun c => ∀ {layout}, p.layoutOf c = some layout → P c layout)
    (fun c cls hcls ih layout hc => ?_) c (hall c hsize) hc
  obtain ⟨base, _, _, hbase, _⟩ := h.made_of hcls hc
  refine step hcls hc hbase ((inheritedLayout_cases hcls hbase).imp id ?_)
  rintro ⟨b, hb, hlayout⟩
  refine ⟨b, hb, ih b ?_ hlayout⟩
  obtain ⟨cls', st, hcls', hst, rfl⟩ := hb
  cases hcls.symm.trans hcls'
  simp [bases, hst]

theorem fields_cases (hcls : p.classAt c = .ok cls) (hlayout : p.layoutOf c = some layout) :
    ∃ base, p.inheritedLayout cls = .ok base ∧ base.fields <+: layout.fields ∧
      (cls.interfaces = [] → ∀ s ∈ layout.fields,
        s ∈ base.fields ∨ ∃ f ∈ cls.fields, f.defn = s.defn) := by
  obtain ⟨base, layout1, layout2, hbase, hinterfaces, hfields, hmethods⟩ := h.made_of hcls hlayout
  obtain ⟨hpre, hadded⟩ := addFieldSlots_ok _ hfields
  rw [fields_addOwnMethods _ hmethods]
  refine ⟨base, hbase, (isPrefix_addInterfaces _ hinterfaces).trans hpre, fun hnone s hs => ?_⟩
  rw [hnone] at hinterfaces
  cases hinterfaces
  exact (hadded s hs).imp id fun hd => List.mem_map.mp hd

theorem isPrefix_fields (hcb : p.Above c b)
    (hc : p.layoutOf c = some layout) (hb : p.layoutOf b = some layout') :
    layout'.fields <+: layout.fields := by
  induction hcb using Relation.ReflTransGen.head_induction_on generalizing layout with
  | refl => rw [hb] at hc; cases hc; exact List.prefix_rfl
  | head hstep _ ih =>
    obtain ⟨cls, st, hcls, hst, rfl⟩ := hstep
    obtain ⟨base, hbase, hpre, _⟩ := h.fields_cases hcls hc
    exact (ih (layoutOf_of_inheritedLayout hst hbase)).trans hpre

theorem exists_declaring (hc : p.layoutOf c = some layout)
    (hnone : ∀ b cls, p.Above c b → p.classAt b = .ok cls → cls.interfaces = []) (hs : s ∈ layout.fields) :
    ∃ b cls, p.Above c b ∧ p.classAt b = .ok cls ∧ ∃ f ∈ cls.fields, f.defn = s.defn := by
  refine h.induction (P := fun c layout =>
    (∀ b cls, p.Above c b → p.classAt b = .ok cls → cls.interfaces = []) → s ∈ layout.fields →
    ∃ b cls, p.Above c b ∧ p.classAt b = .ok cls ∧ ∃ f ∈ cls.fields, f.defn = s.defn)
    (fun {c cls layout base} hcls hc hbase hinherited hnone hs => ?_) hc hnone hs
  obtain ⟨base', hbase', _, hcases⟩ := h.fields_cases hcls hc
  cases hbase.symm.trans hbase'
  rcases hcases (hnone c cls .refl hcls) s hs with hs | hown
  · rcases hinherited with rfl | ⟨b, hstep, ih⟩
    · cases hs
    · obtain ⟨d, dcls, hd, hdeclared⟩ := ih (fun k cls hk => hnone k cls (.head hstep hk)) hs
      exact ⟨d, dcls, .head hstep hd, hdeclared⟩
  · exact ⟨c, cls, .refl, hcls, hown⟩

end Flattened

end Program

end StackBackend
