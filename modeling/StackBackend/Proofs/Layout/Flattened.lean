import StackBackend.Proofs.Layout.InheritanceOrder
import StackBackend.Proofs.Layout.Transport

/-! Flattened programs. The tables of a class depend on the program only through
those of its superclass, and these are done before it, so in the end every class has
the tables that flattening it gives. -/

namespace StackBackend

variable {layout base : ClassLayout} {p q p0 : Program} {c : ClassId} {v : Unit} {cls : ClassDecl}

namespace Program

variable {r : Program}

def layoutOf (p : Program) (c : ClassId) : Option ClassLayout :=
  p.classes[c.index]?.bind ClassDecl.layout

section

variable {st : ClassTy} (hst : cls.supertype = some st)
include hst

theorem layoutOf_of_inheritedLayout (h : p.inheritedLayout cls = .ok base) :
    p.layoutOf st.cls = some base := by
  unfold inheritedLayout at h
  rw [hst] at h
  obtain ⟨superclass, hsuper, h⟩ := Checked.bind_eq_ok.mp h
  unfold layoutOf
  rw [entryAt_eq_ok.mp hsuper]
  cases hlayout : superclass.layout with
  | none => rw [hlayout] at h; cases h
  | some layout => rw [hlayout] at h; cases h; exact hlayout

theorem inheritedLayout_of_layoutOf (h : p.layoutOf st.cls = some base) :
    p.inheritedLayout cls = .ok base := by
  obtain ⟨decl, hdecl, hlayout⟩ := Option.bind_eq_some_iff.mp h
  unfold inheritedLayout
  rw [hst]
  dsimp only
  refine Checked.bind_eq_ok.mpr ⟨decl, classAt_eq hdecl, ?_⟩
  rw [hlayout]
  rfl

end

theorem inheritedLayout_same
    (hst : ∀ st, cls.supertype = some st → q.layoutOf st.cls = p.layoutOf st.cls)
    (h : p.inheritedLayout cls = .ok base) : q.inheritedLayout cls = .ok base := by
  cases hsuper : cls.supertype with
  | none =>
    unfold inheritedLayout at h ⊢
    rw [hsuper] at h ⊢
    exact h
  | some st =>
    exact inheritedLayout_of_layoutOf hsuper
      ((hst st hsuper).trans (layoutOf_of_inheritedLayout hsuper h))

/-! ## Programs that differ in layouts only -/

/-- Two programs that agree in all that flattening looks at, but for tables. -/
structure AgreeButLayouts (p q : Program) : Prop where
  definitions : q.definitions = p.definitions
  functions : q.functions = p.functions
  size : q.classes.size = p.classes.size
  classes : ∀ i : Nat, q.classes[i]?.map ({ · with layout := none }) =
    p.classes[i]?.map ({ · with layout := none })

namespace AgreeButLayouts

theorem refl (p : Program) : p.AgreeButLayouts p := ⟨rfl, rfl, rfl, fun _ => rfl⟩

theorem trans (h : p.AgreeButLayouts q) (h' : q.AgreeButLayouts r) : p.AgreeButLayouts r where
  definitions := h'.definitions.trans h.definitions
  functions := h'.functions.trans h.functions
  size := h'.size.trans h.size
  classes i := (h'.classes i).trans (h.classes i)

theorem symm (h : p.AgreeButLayouts q) : q.AgreeButLayouts p :=
  ⟨h.definitions.symm, h.functions.symm, h.size.symm, fun i => (h.classes i).symm⟩

section

variable (h : p.AgreeButLayouts q)
include h

theorem defnAt (d : DefnId) : q.defnAt d = p.defnAt d := by
  rw [Program.defnAt, h.definitions]
  rfl

theorem functionAt (f : FunctionId) : q.functionAt f = p.functionAt f := by
  rw [Program.functionAt, h.functions]
  rfl

theorem sees : p.Sees q fun _ => True where
  defnAt {d defn} hd := ⟨defn, by rw [h.defnAt, hd], rfl, rfl⟩
  functionAt {f decl} hf := ⟨decl, by rw [h.functionAt, hf], rfl, rfl, fun _ => ⟨rfl, rfl, rfl⟩⟩
  classAt {c cls} hcls := by
    have hc := h.classes c.index
    rw [entryAt_eq_ok.mp hcls] at hc
    obtain ⟨cls', hcls', heq⟩ := Option.map_eq_some_iff.mp hc
    refine ⟨cls'.layout, entryAt_eq_ok.mpr (hcls'.trans (congrArg some ?_))⟩
    cases cls'
    cases cls
    simp_all
  reach c := .inl (by rw [h.size])

theorem flattenClass (hst : ∀ {cls st}, p.classAt c = .ok cls → cls.supertype = some st →
      q.layoutOf st.cls = p.layoutOf st.cls) (hflat : p.flattenClass c = .ok layout) :
    q.flattenClass c = .ok layout :=
  h.sees.flattenClass (fun _ _ _ => trivial) (fun hcls hbase =>
    ⟨fun _ _ => trivial, inheritedLayout_same (fun _ => hst hcls) hbase⟩) hflat

end

end AgreeButLayouts

/-! ## Runs -/

def setLayout (p : Program) (c : ClassId) (layout : ClassLayout) : Program :=
  { p with classes := p.classes.modify c.index ({ · with layout := some layout }) }

theorem agree_setLayout (p : Program) (c : ClassId) (layout : ClassLayout) :
    p.AgreeButLayouts (p.setLayout c layout) where
  definitions := rfl
  functions := rfl
  size := Array.size_modify ..
  classes i := by
    simp only [setLayout, Array.getElem?_modify]
    split
    · rw [Option.map_map]
      rfl
    · rfl

theorem layoutOf_setLayout (hc : c.index < p.classes.size) (b : ClassId) :
    (p.setLayout c layout).layoutOf b = if b = c then some layout else p.layoutOf b := by
  simp only [setLayout, layoutOf, Array.getElem?_modify]
  by_cases hb : b = c
  · subst hb
    simp [hc]
  · have hne : c.index ≠ b.index := fun h => hb (Ref.ext_index h.symm)
    rw [if_neg hne, if_neg hb]

def IsFlat (p : Program) (c : ClassId) : Prop :=
  ∃ layout, p.layoutOf c = some layout ∧ p.flattenClass c = .ok layout

end Program

open Program

theorem Pass.gives_flattenClass :
    (Pass.flattenClass c).Gives p v q ↔ ∃ layout, p.flattenClass c = .ok layout ∧
      c.index < p.classes.size ∧ q = p.setLayout c layout := by
  simp only [Pass.flattenClass, modifyClass, gives_bind, gives_ask, gives_modify]
  constructor
  · rintro ⟨layout, _, ⟨h, rfl⟩, _, _, ⟨hc, rfl⟩, rfl⟩
    exact ⟨layout, h, lt_size_of_entryAt hc, rfl⟩
  · rintro ⟨layout, h, hc, rfl⟩
    exact ⟨layout, p, ⟨h, rfl⟩, _, p, ⟨entryAt_eq_ok.mpr (Array.getElem?_eq_getElem hc), rfl⟩, rfl⟩

theorem isFlat_setLayout {pre post : List ClassId} (ho : p0.Ordered (pre ++ c :: post))
    (hagree : p0.AgreeButLayouts p)
    (hpre : ∀ b ∈ pre, p.IsFlat b) (hc : c.index < p.classes.size)
    (hlayout : p.flattenClass c = .ok layout) :
    ∀ b ∈ pre ++ [c], (p.setLayout c layout).IsFlat b := by
  have hnew := notMem_of_nodup ho.nodup
  -- A superclass comes before the class, so it is not `c`.
  have hkept : ∀ {b before after tables}, pre ++ c :: post = before ++ b :: after →
      (∀ x ∈ before, x ∈ pre) → p.flattenClass b = .ok tables →
      (p.setLayout c layout).flattenClass b = .ok tables := by
    intro b before after tables hsplit hbefore
    refine (agree_setLayout p c layout).flattenClass fun {cls st} hcls hst => ?_
    have hbase : st.cls ∈ before := by
      obtain ⟨layout0, hcls0⟩ := hagree.symm.sees.classAt hcls
      exact ho.basesFirst hsplit hcls0 st.cls (by simp [bases, hst])
    rw [layoutOf_setLayout hc, if_neg]
    rintro rfl
    exact hnew (hbefore _ hbase)
  intro b hb
  rcases List.mem_append.mp hb with hb | hb
  · obtain ⟨tables, htables, hflat⟩ := hpre b hb
    have hne : b ≠ c := fun h => hnew (h ▸ hb)
    obtain ⟨before, after, rfl⟩ := List.append_of_mem hb
    refine ⟨tables, by rw [layoutOf_setLayout hc, if_neg hne, htables], ?_⟩
    have hsplit : before ++ b :: after ++ c :: post = before ++ b :: (after ++ c :: post) := by simp
    exact hkept hsplit (fun x hx => List.mem_append_left _ hx) hflat
  · rw [List.mem_singleton.mp hb]
    exact ⟨layout, by rw [layoutOf_setLayout hc, if_pos rfl], hkept rfl (fun _ h => h) hlayout⟩

theorem isFlat_of_forM (rest : List ClassId) :
    ∀ {pre : List ClassId} {p q : Program}, p0.Ordered (pre ++ rest) → p0.AgreeButLayouts p →
      (∀ b ∈ pre, p.IsFlat b) → (rest.forM Pass.flattenClass).Gives p v q →
      p0.AgreeButLayouts q ∧ ∀ b ∈ pre ++ rest, q.IsFlat b := by
  induction rest with
  | nil =>
    intro pre p q _ hagree hpre h
    obtain ⟨_, rfl⟩ := Pass.gives_pure.mp h
    rw [List.append_nil]
    exact ⟨hagree, hpre⟩
  | cons c rest ih =>
    intro pre p q ho hagree hpre h
    obtain ⟨_, p1, h1, h2⟩ := Pass.gives_bind.mp h
    obtain ⟨layout, hlayout, hc, rfl⟩ := Pass.gives_flattenClass.mp h1
    have hpre1 := isFlat_setLayout ho hagree hpre hc hlayout
    have hsplit : pre ++ c :: rest = pre ++ [c] ++ rest := by simp
    rw [hsplit] at ho ⊢
    exact ih ho (hagree.trans (agree_setLayout p c layout)) hpre1 h2

def Program.ClassesNumbered (p : Program) : Prop :=
  ∀ (i : Nat) (cls : ClassDecl), p.classes[i]? = some cls → cls.id = ⟨i⟩

theorem Program.AgreeButLayouts.ordered {order : List ClassId}
    (h : p.AgreeButLayouts q) (ho : p.Ordered order) : q.Ordered order where
  nodup := ho.nodup
  known c hc := by
    rw [h.size]
    exact ho.known c hc
  basesFirst {pre c post cls} heq hcls b hb := by
    obtain ⟨layout, hcls0⟩ := h.symm.sees.classAt hcls
    exact ho.basesFirst heq hcls0 b hb

/-- Every class has the tables that flattening it gives, and no class is built on
itself. -/
structure Program.Flattened (p : Program) : Prop where
  flat : ∀ c : ClassId, c.index < p.classes.size → p.IsFlat c
  ordered : ∃ order, p.Ordered order ∧ ∀ c : ClassId, c.index < p.classes.size → c ∈ order

theorem Program.mem_inheritanceOrder {order : List ClassId} (hids : p.ClassesNumbered)
    (h : p.inheritanceOrder = .ok order) (hc : c.index < p.classes.size) : c ∈ order := by
  have hget := Array.getElem?_eq_getElem hc
  have hm := (inheritanceOrder_ok h).2 _ (Array.mem_toList_iff.mpr (Array.mem_of_getElem? hget))
  rw [hids c.index _ hget] at hm
  exact hm

theorem flattened_of_flattenClasses (h : Pass.flattenClasses.Gives p0 v p)
    (hids : p0.ClassesNumbered) :
    p0.AgreeButLayouts p ∧ p.Flattened := by
  simp only [Pass.flattenClasses, Pass.gives_bind, Pass.gives_ask] at h
  obtain ⟨order, _, ⟨horder, rfl⟩, h⟩ := h
  have ho := (inheritanceOrder_ok horder).1
  obtain ⟨hagree, hflat⟩ := isFlat_of_forM order ho (.refl _) (List.forall_mem_nil _) h
  have hmem : ∀ c : ClassId, c.index < p.classes.size → c ∈ order := fun c hc =>
    mem_inheritanceOrder hids horder (hagree.size ▸ hc)
  exact ⟨hagree, fun c hc => hflat c (hmem c hc), order, hagree.ordered ho, hmem⟩

end StackBackend
