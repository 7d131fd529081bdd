import Mathlib.Data.Set.Function
import StackBackend.Proofs.Layout.FieldTables

/-! Names in the tables of flattened classes. Each name has one slot, and the slot
stays where it is in all classes below: fields are only ever appended, and a method
either takes over the slot that has its name or is appended under a new one. -/

namespace StackBackend

open Checked List

variable {i : Nat} {s s' : MethodSlot} {owner : String} {method : FunctionId} {cls : ClassDecl}

variable {p : Program} {c b : ClassId} {layout layout' layout'' : ClassLayout}

namespace Program

def methodNames (p : Program) (layout : ClassLayout) : List (Option String) :=
  layout.methods.map p.methodName?

def fieldNames (p : Program) (layout : ClassLayout) : List (Option String) :=
  layout.fields.map p.fieldName?

/-- Everything in the tables has a name of its own. -/
structure Distinct (p : Program) (layout : ClassLayout) : Prop where
  fields : (p.fieldNames layout).Nodup
  methods : (p.methodNames layout).Nodup
  fieldsNamed : none ∉ p.fieldNames layout
  methodsNamed : none ∉ p.methodNames layout

/-- Tables that go on where others end: each field of the others is where it was, and
each of their methods, or one with its name. -/
structure Continues (p : Program) (layout layout' : ClassLayout) : Prop where
  fields : layout.fields <+: layout'.fields
  methods : p.methodNames layout <+: p.methodNames layout'

theorem Continues.refl (p : Program) (layout : ClassLayout) : p.Continues layout layout :=
  ⟨prefix_rfl, prefix_rfl⟩

theorem Continues.trans (h : p.Continues layout layout') (h' : p.Continues layout' layout'') :
    p.Continues layout layout'' :=
  ⟨h.fields.trans h'.fields, h.methods.trans h'.methods⟩

theorem Continues.length_methods (h : p.Continues layout layout') :
    layout.methods.length ≤ layout'.methods.length := by
  simpa [methodNames] using h.methods.length_le

theorem Continues.methodName? (h : p.Continues layout layout') (hs : layout.methods[i]? = some s) :
    ∃ s', layout'.methods[i]? = some s' ∧ p.methodName? s' = p.methodName? s := by
  have hname : (p.methodNames layout)[i]? = some (p.methodName? s) := by simp [methodNames, hs]
  obtain ⟨rest, hrest⟩ := h.methods
  have hname' : (p.methodNames layout')[i]? = some (p.methodName? s) := by
    rw [← hrest, List.getElem?_append_left (List.getElem?_eq_some_iff.mp hname).1, hname]
  rw [methodNames, List.getElem?_map] at hname'
  exact Option.map_eq_some_iff.mp hname'

theorem distinct_empty (p : Program) : p.Distinct .empty :=
  ⟨nodup_nil, nodup_nil, not_mem_nil, not_mem_nil⟩

/-- What every step of flattening does to the tables. -/
structure Grows (p : Program) (layout layout' : ClassLayout) : Prop where
  continues : p.Continues layout layout'
  distinct : p.Distinct layout → p.Distinct layout'

theorem Grows.refl (p : Program) (layout : ClassLayout) : p.Grows layout layout :=
  ⟨.refl p layout, id⟩

theorem Grows.trans (h : p.Grows layout layout') (h' : p.Grows layout' layout'') :
    p.Grows layout layout'' :=
  ⟨h.continues.trans h'.continues, fun hd => h'.distinct (h.distinct hd)⟩

end Program

open Program

theorem Program.Grows.foldlM {α : Type} {add : ClassLayout → α → Checked ClassLayout}
    (hstep : ∀ {layout a layout'}, add layout a = .ok layout' → p.Grows layout layout')
    (xs : List α) (h : xs.foldlM add layout = .ok layout') : p.Grows layout layout' :=
  foldlM_invariant xs h (.refl p layout) fun _ _ _ _ hgrows hadd => hgrows.trans (hstep hadd)

theorem nodup_concat {names : List (Option String)} {name : Option String} (h : names.Nodup)
    (hname : name ∉ names) : (names ++ [name]).Nodup := by
  rw [← List.concat_eq_append]
  exact h.concat hname

theorem grows_addFieldSlot {d : DefnId}
    (h : p.addFieldSlot c owner layout d = .ok layout') : p.Grows layout layout' := by
  rcases addFieldSlot_cases h with ⟨s, _, hnamed, hnew, rfl⟩ | ⟨rfl, _⟩
  · refine ⟨⟨prefix_append .., prefix_rfl⟩, fun hd => ?_⟩
    have hfresh : p.fieldName? s ∉ p.fieldNames layout := by
      intro hm
      obtain ⟨s', hs', heq⟩ := mem_map.mp hm
      exact (hnew s' hs').1 heq
    refine ⟨?_, hd.methods, ?_, hd.methodsNamed⟩
    · simpa [fieldNames] using nodup_concat hd.fields hfresh
    · simpa [fieldNames, hnamed.symm] using hd.fieldsNamed
  · exact .refl p _

theorem methodNames_set (hs : layout.methods[i]? = some s')
    (hname : p.methodName? s' = p.methodName? s) :
    p.methodNames { layout with methods := layout.methods.set i s } = p.methodNames layout := by
  refine List.ext_getElem? fun j => ?_
  simp only [methodNames, List.getElem?_map, List.getElem?_set]
  by_cases hj : i = j
  · subst hj
    rw [if_pos rfl, if_pos (List.getElem?_eq_some_iff.mp hs).1, hs]
    exact congrArg some hname.symm
  · rw [if_neg hj]

theorem grows_addMethodSlot
    (h : p.addMethodSlot c layout method = .ok layout') : p.Grows layout layout' := by
  obtain ⟨s, _, hnamed, ⟨hnew, rfl⟩ | ⟨i, s', hs', hname, _, rfl⟩⟩ := addMethodSlot_cases h
  · have hnames : p.methodNames { layout with methods := layout.methods ++ [s] } =
        p.methodNames layout ++ [p.methodName? s] := by simp [methodNames]
    refine ⟨⟨prefix_rfl, hnames ▸ prefix_append ..⟩, fun hd => ?_⟩
    have hfresh : p.methodName? s ∉ p.methodNames layout := by
      intro hm
      obtain ⟨s', hs', heq⟩ := mem_map.mp hm
      exact (hnew s' hs').1 heq
    refine ⟨hd.fields, ?_, hd.fieldsNamed, ?_⟩
    · exact hnames ▸ nodup_concat hd.methods hfresh
    · simpa [hnames, hnamed.symm] using hd.methodsNamed
  · have hnames := methodNames_set hs' hname
    exact ⟨⟨prefix_rfl, hnames ▸ prefix_rfl⟩,
      fun hd => ⟨hd.fields, hnames ▸ hd.methods, hd.fieldsNamed, hnames ▸ hd.methodsNamed⟩⟩

theorem grows_addInterface {iface : ClassId} (h : p.addInterface c layout iface = .ok layout') :
    p.Grows layout layout' := by
  obtain ⟨source, _, h⟩ := bind_eq_ok.mp h
  obtain ⟨layout1, hfields, hmethods⟩ := bind_eq_ok.mp h
  exact (Grows.foldlM grows_addFieldSlot _ hfields).trans
    (Grows.foldlM grows_addMethodSlot _ hmethods)

/-! ## Own members -/

theorem mem_addFieldSlots (ds : List DefnId) :
    ∀ {layout layout' : ClassLayout}, ds.foldlM (p.addFieldSlot c owner) layout = .ok layout' →
      ∀ d ∈ ds, ∃ s ∈ layout'.fields, s.defn = d := by
  induction ds with
  | nil => intro layout layout' _ d hd; cases hd
  | cons d rest ih =>
    intro layout layout' h
    obtain ⟨layout1, h1, h2⟩ := bind_eq_ok.mp (List.foldlM_cons (m := Checked) ▸ h)
    refine forall_mem_cons.mpr ⟨?_, ih h2⟩
    have hkept := (Grows.foldlM grows_addFieldSlot _ h2).continues.fields.subset
    rcases addFieldSlot_cases h1 with ⟨s, hs, _, _, rfl⟩ | ⟨rfl, s, hs, rfl⟩
    · exact ⟨s, hkept (by simp), hs⟩
    · exact ⟨s, hkept hs, rfl⟩

theorem mem_of_addMethodSlot (h : p.addMethodSlot c layout method = .ok layout')
    (hs : s ∈ layout.methods)
    (hname : p.methodName? s ≠ p.functions[method.index]?.map FunctionDecl.name) :
    s ∈ layout'.methods := by
  obtain ⟨new, rfl, _, ⟨_, rfl⟩ | ⟨i, old, hold, hsame, _, rfl⟩⟩ := addMethodSlot_cases h
  · exact mem_append_left _ hs
  · obtain ⟨j, hj⟩ := mem_iff_getElem?.mp hs
    refine mem_iff_getElem?.mpr ⟨j, ?_⟩
    have hij : i ≠ j := by
      rintro rfl
      cases hold.symm.trans hj
      exact hname hsame
    rw [List.getElem?_set_ne hij, hj]

theorem mem_addMethodSlot (h : p.addMethodSlot c layout method = .ok layout') :
    ∃ s ∈ layout'.methods, s.function = method := by
  obtain ⟨s, hs, _, ⟨_, rfl⟩ | ⟨i, old, hold, _, _, rfl⟩⟩ := addMethodSlot_cases h
  · exact ⟨s, by simp, hs⟩
  · exact ⟨s, mem_set (List.getElem?_eq_some_iff.mp hold).1 s, hs⟩

theorem grows_addOwnMethods (methods : List FunctionId) :
    ∀ {seen : List String} {layout layout' : ClassLayout},
      p.addOwnMethods cls c seen layout methods = .ok layout' → p.Grows layout layout' ∧
        (∀ s ∈ layout.methods, ∀ name ∈ seen, p.methodName? s = some name → s ∈ layout'.methods) ∧
        ∀ m ∈ methods, ∃ s ∈ layout'.methods, s.function = m := by
  induction methods with
  | nil =>
    intro seen layout layout' h
    cases h
    exact ⟨.refl p _, fun s hs _ _ _ => hs, nofun⟩
  | cons method rest ih =>
    intro seen layout layout' h
    obtain ⟨function, hfunction, h⟩ := bind_eq_ok.mp h
    dsimp only at h
    split at h
    · cases h
    rename_i hnew
    obtain ⟨layout1, h1, h2⟩ := bind_eq_ok.mp h
    obtain ⟨hgrows, hkept, hpresent⟩ := ih h2
    refine ⟨(grows_addMethodSlot h1).trans hgrows, fun s hs name hname heq => ?_, ?_⟩
    · refine hkept s (mem_of_addMethodSlot h1 hs ?_) name (.tail _ hname) heq
      rw [heq, entryAt_eq_ok.mp hfunction]
      rintro ⟨⟩
      exact hnew hname
    · refine forall_mem_cons.mpr ⟨?_, hpresent⟩
      obtain ⟨s, hs, rfl⟩ := mem_addMethodSlot h1
      exact ⟨s, hkept s hs _ (.head _) (methodName?_eq hfunction), rfl⟩

/-! ## Flattened classes -/

/-- Tables that a class may have. -/
structure Program.Tabulates (p : Program) (cls : ClassDecl) (layout : ClassLayout) : Prop where
  distinct : p.Distinct layout
  fields : ∀ f ∈ cls.fields, ∃ s ∈ layout.fields, s.defn = f.defn
  methods : ∀ m ∈ cls.methods, ∃ s ∈ layout.methods, s.function = m

namespace Program.Flattened

variable (h : p.Flattened)
include h

theorem tables_cases (hcls : p.classAt c = .ok cls) (hlayout : p.layoutOf c = some layout) :
    ∃ base, p.inheritedLayout cls = .ok base ∧ p.Grows base layout ∧
      (p.Distinct base → p.Tabulates cls layout) := by
  obtain ⟨base, layout1, layout2, hbase, hinterfaces, hfields, hmethods⟩ := h.made_of hcls hlayout
  obtain ⟨hgrows, _, hpresent⟩ := grows_addOwnMethods _ hmethods
  have hall := ((Grows.foldlM grows_addInterface _ hinterfaces).trans
    (Grows.foldlM grows_addFieldSlot _ hfields)).trans hgrows
  refine ⟨base, hbase, hall, fun hd => ⟨hall.distinct hd, fun f hf => ?_, hpresent⟩⟩
  obtain ⟨s, hs, heq⟩ := mem_addFieldSlots _ hfields f.defn (mem_map_of_mem hf)
  exact ⟨s, hgrows.continues.fields.subset hs, heq⟩

theorem distinct (hc : p.layoutOf c = some layout) : p.Distinct layout := by
  refine h.induction (P := fun _ => p.Distinct) (fun hcls hc hbase hinherited => ?_) hc
  obtain ⟨base, hbase', hgrows, _⟩ := h.tables_cases hcls hc
  cases hbase.symm.trans hbase'
  rcases hinherited with rfl | ⟨_, _, hdistinct⟩
  · exact hgrows.distinct (distinct_empty p)
  · exact hgrows.distinct hdistinct

theorem tabulates (hcls : p.classAt c = .ok cls)
    (hc : p.layoutOf c = some layout) : p.Tabulates cls layout := by
  obtain ⟨base, hbase, _, htables⟩ := h.tables_cases hcls hc
  rcases inheritedLayout_cases hcls hbase with rfl | ⟨_, _, hb⟩
  · exact htables (distinct_empty p)
  · exact htables (h.distinct hb)

theorem continues (hcb : p.Above c b) (hc : p.layoutOf c = some layout)
    (hb : p.layoutOf b = some layout') : p.Continues layout' layout := by
  induction hcb using Relation.ReflTransGen.head_induction_on generalizing layout with
  | refl => rw [hb] at hc; cases hc; exact .refl p _
  | head hstep _ ih =>
    obtain ⟨cls, st, hcls, hst, rfl⟩ := hstep
    obtain ⟨base, hbase, hgrows, _⟩ := h.tables_cases hcls hc
    exact (ih (layoutOf_of_inheritedLayout hst hbase)).trans hgrows.continues

end Program.Flattened

/-! ## Positions -/

theorem findIdx?_eq_some_iff_of_nodup {α β : Type} [DecidableEq β] {key : α → β} {xs : List α}
    (h : (xs.map key).Nodup) {b : β} :
    xs.findIdx? (key · = b) = some i ↔ ∃ x, xs[i]? = some x ∧ key x = b := by
  rw [List.findIdx?_eq_some_iff_getElem]
  constructor
  · rintro ⟨hi, hb, _⟩
    exact ⟨xs[i], List.getElem?_eq_getElem hi, by simpa using hb⟩
  · rintro ⟨x, hx, rfl⟩
    obtain ⟨hi, rfl⟩ := List.getElem?_eq_some_iff.mp hx
    refine ⟨hi, by simp, fun j hj => ?_⟩
    have hne : j ≠ i := Nat.ne_of_lt hj
    have hkeys := (@List.Nodup.getElem_inj_iff _ _ h j (by simp; omega) i (by simp; omega)).not.mpr hne
    simpa using hkeys

/-- Members are found at their positions, and no two members at the same one. -/
structure ClassLayout.Indexed (layout : ClassLayout) : Prop where
  field : ∀ {d i}, layout.fieldIndex? d = some i ↔ ∃ s, layout.fields[i]? = some s ∧ s.defn = d
  method : ∀ {f i}, layout.methodSlot? f = some i ↔
    ∃ s, layout.methods[i]? = some s ∧ s.function = f

theorem Program.Distinct.indexed (h : p.Distinct layout) : layout.Indexed where
  field {d i} := by
    have hnodup : (layout.fields.map FieldSlot.defn).Nodup := by
      refine List.Nodup.of_map (fun d => p.definitions[d.index]?.map Definition.name) ?_
      rw [map_map]
      exact h.fields
    exact findIdx?_eq_some_iff_of_nodup hnodup
  method {f i} := by
    have hnodup : (layout.methods.map MethodSlot.function).Nodup := by
      refine List.Nodup.of_map (fun f => p.functions[f.index]?.map FunctionDecl.name) ?_
      rw [map_map]
      exact h.methods
    exact findIdx?_eq_some_iff_of_nodup hnodup

theorem ClassLayout.Indexed.injOn_fieldIndex? (h : layout.Indexed) :
    Set.InjOn layout.fieldIndex? {d | (layout.fieldIndex? d).isSome} := by
  intro d hd d' _ heq
  obtain ⟨i, hi⟩ := Option.isSome_iff_exists.mp hd
  obtain ⟨s, hs, rfl⟩ := h.field.mp hi
  obtain ⟨s', hs', rfl⟩ := h.field.mp (heq ▸ hi)
  cases hs.symm.trans hs'
  rfl

theorem ClassLayout.Indexed.injOn_methodSlot? (h : layout.Indexed) :
    Set.InjOn layout.methodSlot? {f | (layout.methodSlot? f).isSome} := by
  intro f hf f' _ heq
  obtain ⟨i, hi⟩ := Option.isSome_iff_exists.mp hf
  obtain ⟨s, hs, rfl⟩ := h.method.mp hi
  obtain ⟨s', hs', rfl⟩ := h.method.mp (heq ▸ hi)
  cases hs.symm.trans hs'
  rfl

theorem Program.Distinct.slot_unique (h : p.Distinct layout) {j : Nat}
    (hs : layout.methods[i]? = some s) (hs' : layout.methods[j]? = some s')
    (hname : p.methodName? s = p.methodName? s') : i = j := by
  have hi : (p.methodNames layout)[i]? = some (p.methodName? s) := by simp [methodNames, hs]
  have hj : (p.methodNames layout)[j]? = some (p.methodName? s) := by
    simp [methodNames, hs', hname]
  exact (List.getElem?_inj (List.getElem?_eq_some_iff.mp hi).1 h.methods).mp (hi.trans hj.symm)

/-- Once classes are flattened, each class has tables with all of its members, where
no name comes twice. They begin with the tables of every class above it: its fields
stand where they stood, and each slot for a method still goes by the name it had, which
no other slot has. -/
theorem flattened_tables_extend {p₀ p : Program} (h : Pass.flattenClasses.Gives p₀ () p)
    (hids : p₀.ClassesNumbered) :
    p₀.AgreeButLayouts p ∧
    (∀ c cls, p.classAt c = .ok cls → ∃ layout, cls.layout = some layout ∧
      p.Tabulates cls layout ∧ layout.Indexed ∧
      Set.InjOn layout.fieldIndex? {d | (layout.fieldIndex? d).isSome} ∧
      Set.InjOn layout.methodSlot? {f | (layout.methodSlot? f).isSome}) ∧
    ∀ c b layout base, p.Above c b → p.layoutOf c = some layout → p.layoutOf b = some base →
      base.fields <+: layout.fields ∧ base.methods.length ≤ layout.methods.length ∧
      ∀ (i : Nat) (s : MethodSlot), base.methods[i]? = some s →
        (∃ s', layout.methods[i]? = some s' ∧ p.methodName? s' = p.methodName? s) ∧
        ∀ (j : Nat) (s' : MethodSlot), layout.methods[j]? = some s' → p.methodName? s' = p.methodName? s → j = i := by
  obtain ⟨hagree, hflat⟩ := flattened_of_flattenClasses h hids
  refine ⟨hagree, fun c cls hcls => ?_, fun c b layout base hcb hc hb => ?_⟩
  · obtain ⟨layout, hlayout, _⟩ := hflat.flat c (lt_size_of_entryAt hcls)
    have htables := hflat.tabulates hcls hlayout
    have hindexed := htables.distinct.indexed
    rw [layoutOf, entryAt_eq_ok.mp hcls] at hlayout
    exact ⟨layout, hlayout, htables, hindexed, hindexed.injOn_fieldIndex?,
      hindexed.injOn_methodSlot?⟩
  · have hcontinues := hflat.continues hcb hc hb
    refine ⟨hcontinues.fields, hcontinues.length_methods, fun i s hs => ?_⟩
    obtain ⟨s', hs', hname⟩ := hcontinues.methodName? hs
    exact ⟨⟨s', hs', hname⟩, fun j s'' hs'' heq =>
      (hflat.distinct hc).slot_unique hs'' hs' (heq.trans hname.symm)⟩

/-! A class `Square` below `Shape`, with the interface `Named`. It replaces `area` of the
one and `show` of the other and adds `grow`. -/

def FunctionDecl.shapeMethod (id : Nat) (name : String) (owner : Nat) : FunctionDecl :=
  { id := ⟨id⟩, name, kind := .method ⟨owner⟩, scope := ⟨0⟩, returnTy := .i32, typeParams := [],
    params := [], body := none, chain := none, isBuiltin := false, isFinal := false,
    lowered := none }

def ClassDecl.shape (id : Nat) (name : String) (supertype : Option ClassTy)
    (interfaces : List ClassId) (methods : List FunctionId) (layout : Option ClassLayout) :
    ClassDecl :=
  { id := ⟨id⟩, name, supertype, interfaces, typeParams := [], scope := ⟨0⟩,
    fields := [⟨⟨id⟩, none⟩], methods, constructors := [], initializer := none,
    origin := .declared, isFinal := false, layout }

def Program.shapes (shape named square : Option ClassLayout) : Program :=
  { Program.empty with
    definitions := #[⟨⟨0⟩, "size", .field ⟨0⟩, .i32, true, ⟨0⟩⟩,
      ⟨⟨1⟩, "label", .field ⟨1⟩, .i64, true, ⟨0⟩⟩, ⟨⟨2⟩, "side", .field ⟨2⟩, .i32, true, ⟨0⟩⟩]
    classes := #[.shape 0 "Shape" none [] [⟨0⟩] shape, .shape 1 "Named" none [] [⟨1⟩] named,
      .shape 2 "Square" (some ⟨⟨0⟩, [], false⟩) [⟨1⟩] [⟨2⟩, ⟨3⟩, ⟨4⟩] square]
    functions := #[.shapeMethod 0 "area" 0, .shapeMethod 1 "show" 1, .shapeMethod 2 "grow" 2,
      .shapeMethod 3 "show" 2, .shapeMethod 4 "area" 2] }

def ClassLayout.shape : ClassLayout := ⟨[⟨⟨0⟩, .bits32⟩], [⟨⟨0⟩, some .bits32⟩]⟩

def ClassLayout.named : ClassLayout := ⟨[⟨⟨1⟩, .bits64⟩], [⟨⟨1⟩, some .bits32⟩]⟩

def ClassLayout.square : ClassLayout :=
  ⟨[⟨⟨0⟩, .bits32⟩, ⟨⟨1⟩, .bits64⟩, ⟨⟨2⟩, .bits32⟩],
    [⟨⟨4⟩, some .bits32⟩, ⟨⟨3⟩, some .bits32⟩, ⟨⟨2⟩, some .bits32⟩]⟩

theorem flattensTo_shapes : (Program.shapes none none none).FlattensTo
    (.shapes (some .shape) (some .named) (some .square)) where
  gives := rfl
  numbered := by
    intro i cls hcls
    obtain ⟨hi, hcls⟩ := Array.getElem?_eq_some_iff.mp hcls
    change i < 3 at hi
    rcases i with _ | _ | _ | i <;> first | omega | (cases hcls; rfl)
  fieldsOwned := by
    rintro ⟨i⟩ cls hcls field hfield
    obtain ⟨hi, hcls⟩ := Array.getElem?_eq_some_iff.mp (entryAt_eq_ok.mp hcls)
    change i < 3 at hi
    rcases i with _ | _ | _ | i
    iterate 3
      cases hcls
      cases mem_singleton.mp hfield
      exact ⟨_, rfl, rfl⟩
    omega

theorem flattened_tables_extend_shapes : Pass.flattenClasses.Gives (.shapes none none none) ()
      (.shapes (some .shape) (some .named) (some .square)) ∧
    ClassLayout.shape.fields <+: ClassLayout.square.fields ∧
    ∀ (j : Nat) (s' : MethodSlot), ClassLayout.square.methods[j]? = some s' →
      (Program.shapes (some .shape) (some .named) (some .square)).methodName? s' = some "area" →
      j = 0 := by
  obtain ⟨_, _, habove⟩ :=
    flattened_tables_extend flattensTo_shapes.gives flattensTo_shapes.numbered
  have hsuper : (Program.shapes (some .shape) (some .named) (some .square)).Above ⟨2⟩ ⟨0⟩ :=
    .single ⟨_, _, rfl, rfl, rfl⟩
  obtain ⟨hfields, _, hmethods⟩ := habove _ _ _ _ hsuper rfl rfl
  exact ⟨flattensTo_shapes.gives, hfields, fun j s' hs' hname => (hmethods 0 _ rfl).2 j s' hs' hname⟩

end StackBackend
