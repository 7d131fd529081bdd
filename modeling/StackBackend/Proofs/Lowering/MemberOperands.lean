import StackBackend.Proofs.Lowering.Dispatch

/-! Operands for members. A field is accessed at its index in the class that declares it, and a
method is called at its slot in the class of the receiver or, if that one has it no longer, in
the class that declares it. These are the right places for members that come down a chain of
superclasses, but not always for those of interfaces. -/

namespace StackBackend

open Checked List
open Program

variable {owner : String} {d : DefnId} {cls : ClassDecl} {base : ClassLayout} {slot : FieldSlot}
  {m : FunctionId} {k : Nat} {entry : MethodSlot}

variable {p : Program} {a b c : ClassId} {layout layout' : ClassLayout}

/-- The field is one of those of the class, and knows it. -/
structure Program.DeclaresField (p : Program) (c : ClassId) (d : DefnId) : Prop where
  listed : ∃ cls, p.classAt c = .ok cls ∧ d ∈ cls.fields.map FieldDecl.defn
  owned : ∃ defn, p.defnAt d = .ok defn ∧ defn.kind = .field c

/-- What a field of a table is: stored as its type demands, and listed by a class that
supplies members. -/
structure Program.Backs (p : Program) (c : ClassId) (s : FieldSlot) : Prop where
  storage : ∃ defn, p.defnAt s.defn = .ok defn ∧ s.storage = defn.ty.storage.getD .pointer
  listed : ∃ b cls, p.Supplies b c ∧ p.classAt b = .ok cls ∧ s.defn ∈ cls.fields.map FieldDecl.defn

/-! ## The fields of a table -/

theorem backs_addFieldSlot (h : p.addFieldSlot c owner layout d = .ok layout') (hb : p.Supplies b c)
    (hcls : p.classAt b = .ok cls) (hd : d ∈ cls.fields.map FieldDecl.defn)
    (hall : ∀ s ∈ layout.fields, p.Backs c s) : ∀ s ∈ layout'.fields, p.Backs c s := by
  obtain ⟨field, hfield, h⟩ := bind_eq_ok.mp h
  obtain ⟨found, _, h⟩ := bind_eq_ok.mp h
  cases found with
  | none =>
    cases h
    intro s hs
    rcases mem_append.mp hs with hs | hs
    · exact hall s hs
    · cases mem_singleton.mp hs
      exact ⟨⟨field, hfield, rfl⟩, b, cls, hb, hcls, hd⟩
  | some existing =>
    dsimp only at h
    split at h
    · cases h
      exact hall
    · obtain ⟨_, _, h⟩ := bind_eq_ok.mp h
      obtain ⟨_, _, h⟩ := bind_eq_ok.mp h
      obtain ⟨_, _, h⟩ := bind_eq_ok.mp h
      cases h

theorem backs_addFieldSlots (hb : p.Supplies b c) (hcls : p.classAt b = .ok cls) (ds : List DefnId)
    (h : ds.foldlM (p.addFieldSlot c owner) layout = .ok layout')
    (hds : ∀ d ∈ ds, d ∈ cls.fields.map FieldDecl.defn) (hall : ∀ s ∈ layout.fields, p.Backs c s) :
    ∀ s ∈ layout'.fields, p.Backs c s :=
  foldlM_invariant (I := fun l => ∀ s ∈ l.fields, p.Backs c s) ds h hall
    fun d hd _ _ hall hadd => backs_addFieldSlot hadd hb hcls (hds d hd) hall

theorem backs_addInterfaces (hcls : p.classAt c = .ok cls)
    (h : cls.interfaces.foldlM (p.addInterface c) layout = .ok layout')
    (hall : ∀ s ∈ layout.fields, p.Backs c s) : ∀ s ∈ layout'.fields, p.Backs c s := by
  refine foldlM_invariant (I := fun l => ∀ s ∈ l.fields, p.Backs c s) _ h hall
    fun i hi _ _ hall hadd => ?_
  obtain ⟨source, hsource, hadd⟩ := bind_eq_ok.mp hadd
  obtain ⟨layout0, hfields, hmethods⟩ := bind_eq_ok.mp hadd
  rw [fields_addMethodSlots _ hmethods]
  exact backs_addFieldSlots ⟨c, .refl, .inr ⟨cls, hcls, hi⟩⟩ hsource _ hfields (fun _ hd => hd) hall

namespace Program.Flattened

variable (h : p.Flattened)
include h

theorem backs_of_inherited (hcls : p.classAt c = .ok cls)
    (hbase : p.inheritedLayout cls = .ok base) (hc : p.layoutOf c = some layout)
    (hall : ∀ s ∈ base.fields, p.Backs c s) : ∀ s ∈ layout.fields, p.Backs c s := by
  obtain ⟨base', layout1, layout2, hbase', hinterfaces, hfields, hmethods⟩ := h.made_of hcls hc
  cases hbase.symm.trans hbase'
  rw [fields_addOwnMethods _ hmethods]
  exact backs_addFieldSlots ⟨c, .refl, .inl rfl⟩ hcls _ hfields (fun _ hd => hd)
    (backs_addInterfaces hcls hinterfaces hall)

theorem backs (hc : p.layoutOf c = some layout) : ∀ s ∈ layout.fields, p.Backs c s := by
  refine h.induction (P := fun c layout => ∀ s ∈ layout.fields, p.Backs c s)
    (fun hcls hc hbase hinherited => h.backs_of_inherited hcls hbase hc fun s hs => ?_) hc
  rcases hinherited with rfl | ⟨b, hstep, ih⟩
  · cases hs
  · obtain ⟨hstorage, source, sourceCls, hsupplies, hlisted⟩ := ih s hs
    exact ⟨hstorage, source, sourceCls, hsupplies.below (.single hstep), hlisted⟩

end Program.Flattened

/-! ## Where a member is accessed -/

theorem Site.gives_fieldSlot {site : Site} {defn : Definition}
    {j : Nat} {s : LowerState} (hd : site.program.defnAt d = .ok defn) (hkind : defn.kind = .field b)
    (hb : site.program.layoutOf b = some layout) (hindexed : layout.Indexed)
    (hj : layout.fields[j]? = some slot) (hslot : slot.defn = d) :
    (site.fieldSlot d).Gives s (j, slot.storage) s := by
  obtain ⟨cls, hcls, hlayout⟩ := Option.bind_eq_some_iff.mp hb
  refine Lower.gives_bind.mpr ⟨defn, s, Lower.gives_lift.mpr ⟨hd, rfl⟩, ?_⟩
  rw [hkind]
  refine Lower.gives_bind.mpr ⟨cls, s, Lower.gives_lift.mpr ⟨entryAt_eq_ok.mpr hcls, rfl⟩, ?_⟩
  have hindex : layout.fieldIndex? d = some j := hindexed.field.mpr ⟨slot, hj, hslot⟩
  have hfield : layout.field? d = some slot := by
    obtain ⟨found, hfound⟩ : ∃ found, layout.field? d = some found :=
      Option.isSome_iff_exists.mp (List.find?_isSome.mpr
        ⟨slot, mem_of_getElem? hj, by simpa using hslot⟩)
    obtain ⟨k, hk⟩ := mem_iff_getElem?.mp (mem_of_find?_eq_some hfound)
    have hsame : found.defn = d := by simpa using List.find?_some hfound
    cases hindex.symm.trans (hindexed.field.mpr ⟨found, hk, hsame⟩)
    cases hj.symm.trans hk
    exact hfound
  simp only [hlayout, hindex, hfield]
  exact Lower.gives_pure.mpr ⟨rfl, rfl⟩

namespace Program.Flattened

variable (h : p.Flattened)
include h

theorem exists_source (hfields : p.FieldsOwned) (hc : p.layoutOf c = some layout)
    (hslot : slot ∈ layout.fields) :
    ∃ (b : ClassId) (base : ClassLayout) (j : Nat), p.Supplies b c ∧ p.DeclaresField b slot.defn ∧
      p.layoutOf b = some base ∧ base.fields[j]? = some slot := by
  obtain ⟨⟨defn, hdefn, hstorage⟩, b, cls, hsupplies, hcls, hlisted⟩ := h.backs hc slot hslot
  obtain ⟨field, hfield, heq⟩ := mem_map.mp hlisted
  obtain ⟨defn', hdefn', hkind⟩ := hfields hcls field hfield
  rw [heq] at hdefn'
  obtain ⟨base, hbase⟩ := h.exists_layout hcls
  obtain ⟨own, hown, howneq⟩ := (h.tabulates hcls hbase).fields field hfield
  obtain ⟨j, hj⟩ := mem_iff_getElem?.mp hown
  have hsame : own = slot := by
    obtain ⟨⟨defn'', hdefn'', hstorage'⟩, _⟩ := h.backs hbase own hown
    rw [howneq, heq] at hdefn''
    cases hdefn.symm.trans hdefn''
    cases own
    cases slot
    simp_all
  exact ⟨b, base, j, hsupplies, ⟨⟨cls, hcls, hlisted⟩, defn', hdefn', hkind⟩, hbase, hsame ▸ hj⟩

theorem firstSlot?_cases (hm : p.DeclaresMethod b m) (hc : p.layoutOf c = some layout)
    (hb : p.layoutOf b = some base)
    (hk : layout.methods[k]? = some entry) (hname : p.methodName? entry = p.nameOf? m) :
    ∃ slot, Site.firstSlot? p m [c, b] = .ok (some slot) ∧
      (slot = k ↔ layout.Holds m ∨ base.methodSlot? m = some k) := by
  rw [Site.firstSlot?_cons hc]
  cases hslot : layout.methodSlot? m with
  | some slot =>
    obtain ⟨s, hs, rfl⟩ := (h.distinct hc).indexed.method.mp hslot
    have heq : slot = k := (h.distinct hc).slot_unique hs hk hname.symm
    exact ⟨slot, rfl, fun _ => .inl ⟨s, mem_of_getElem? hs, rfl⟩, fun _ => heq⟩
  | none =>
    have hmissing : ¬ layout.Holds m := by
      rintro ⟨s, hs, hsm⟩
      obtain ⟨i, hi⟩ := mem_iff_getElem?.mp hs
      rw [(h.distinct hc).indexed.method.mpr ⟨s, hi, hsm⟩] at hslot
      cases hslot
    obtain ⟨s, hs, hsm⟩ := h.holds_of_declares hm hb
    obtain ⟨slot, hs⟩ := mem_iff_getElem?.mp hs
    have hfound := (h.distinct hb).indexed.method.mpr ⟨s, hs, hsm⟩
    refine ⟨slot, ?_, ?_⟩
    · rw [Site.firstSlot?_cons hb, hfound]
    · rw [hfound, Option.some.injEq]
      exact ⟨.inr, fun hor => hor.resolve_left hmissing⟩

theorem methodSlot?_of_above (hcb : p.Above c b) (hm : p.DeclaresMethod b m)
    (hc : p.layoutOf c = some layout)
    (hb : p.layoutOf b = some base) (hk : layout.methods[k]? = some entry)
    (hname : p.methodName? entry = p.nameOf? m) : base.methodSlot? m = some k := by
  obtain ⟨s, hs, rfl⟩ := h.holds_of_declares hm hb
  obtain ⟨i, hi⟩ := mem_iff_getElem?.mp hs
  obtain ⟨s', hs', hsame⟩ := (h.continues hcb hc hb).methodName? hi
  have hik : i = k := (h.distinct hc).slot_unique hs' hk (hsame.trans hname.symm)
  exact (h.distinct hb).indexed.method.mpr ⟨s, hik ▸ hi, rfl⟩

end Program.Flattened

/-- An access to a field of a table comes out with the storage of the table, at the index that the
field has where it is declared. A call of a method that the table has by name is at its slot there,
or at the one where it is declared. Both are right if the member is declared by a class above. -/
theorem member_operands_right_iff {p₀ p : Program} (h : p₀.FlattensTo p) {c : ClassId}
    {layout : ClassLayout} (hc : p.layoutOf c = some layout) (f : FunctionDecl)
    (slots : List LocalSlot) (s : LowerState) :
    (∀ i slot, layout.fields[i]? = some slot →
      layout.fieldIndex? slot.defn = some i ∧
      ∃ (b : ClassId) (base : ClassLayout) (j : Nat), p.Supplies b c ∧ p.DeclaresField b slot.defn ∧
        p.layoutOf b = some base ∧
        (Site.fieldSlot ⟨p, f, slots⟩ slot.defn).Gives s (j, slot.storage) s ∧
        (j = i ↔ base.fieldIndex? slot.defn = layout.fieldIndex? slot.defn) ∧
        (p.Above c b → j = i)) ∧
    ∀ b base m k entry cls target args nullable argc, p.DeclaresMethod b m → p.layoutOf b = some base →
      layout.methods[k]? = some entry → p.methodName? entry = p.nameOf? m →
      p.classAt c = .ok cls → cls.isFinal = false →
      p.functionAt m = .ok target → target.isFinal = false →
      ∃ slot, (Site.dispatch ⟨p, f, slots⟩ (.object c args nullable) m argc).Gives s
          (.callVirtual (argc + 1) slot) s ∧
        (slot = k ↔ layout.Holds m ∨ base.methodSlot? m = some k) ∧
        (p.Above c b → slot = k) := by
  obtain ⟨hagree, hflat⟩ := flattened_of_flattenClasses h.gives h.numbered
  have hindexed := (hflat.distinct hc).indexed
  refine ⟨fun i slot hi => ?_, ?_⟩
  · have hindex : layout.fieldIndex? slot.defn = some i := hindexed.field.mpr ⟨slot, hi, rfl⟩
    obtain ⟨b, base, j, hsupplies, hdeclares, hb, hj⟩ :=
      hflat.exists_source (hagree.fieldsOwned h.fieldsOwned) hc (mem_of_getElem? hi)
    have hbase := (hflat.distinct hb).indexed
    have hindex' : base.fieldIndex? slot.defn = some j := hbase.field.mpr ⟨slot, hj, rfl⟩
    obtain ⟨defn, hdefn, hkind⟩ := hdeclares.owned
    refine ⟨hindex, b, base, j, hsupplies, hdeclares, hb,
      Site.gives_fieldSlot hdefn hkind hb hbase hj rfl, ?_, fun hcb => ?_⟩
    · rw [hindex, hindex', Option.some.injEq]
    · obtain ⟨rest, hrest⟩ := (hflat.continues hcb hc hb).fields
      have hj' : layout.fields[j]? = some slot := by
        rw [← hrest, List.getElem?_append_left (List.getElem?_eq_some_iff.mp hj).1, hj]
      exact Option.some.inj ((hindexed.field.mpr ⟨slot, hj', rfl⟩).symm.trans hindex)
  · intro b base m k entry cls target args nullable argc hm hb hk hname hcls hclass htarget hmethod
    obtain ⟨slot, hslot, hiff⟩ := hflat.firstSlot?_cases hm hc hb hk hname
    have hfirst : Site.firstSlot? p m (c :: target.kind.owner?.toList) = .ok (some slot) := by
      obtain ⟨target', htarget', howner⟩ := hm.owned
      cases htarget.symm.trans htarget'
      rw [howner]
      exact hslot
    exact ⟨slot, Site.dispatch_virtual htarget hcls hmethod hclass hfirst, hiff,
      fun hcb => hiff.mpr (.inr (hflat.methodSlot?_of_above hcb hm hc hb hk hname))⟩

/-- On a `Square`, `size` and `area` of `Shape` are accessed where the tables have them. -/
theorem member_operands_right_iff_shapes :
    (Site.fieldSlot ⟨.shapes (some .shape) (some .named) (some .square), .shapeMethod 0 "area" 0, []⟩
      ⟨0⟩).Gives ⟨.initial, #[]⟩ (0, .bits32) ⟨.initial, #[]⟩ ∧
    (Site.dispatch ⟨.shapes (some .shape) (some .named) (some .square), .shapeMethod 0 "area" 0, []⟩
      (.ofClass ⟨2⟩) ⟨0⟩ 0).Gives ⟨.initial, #[]⟩ (.callVirtual 1 0) ⟨.initial, #[]⟩ := by
  obtain ⟨hfields, hmethods⟩ := member_operands_right_iff flattensTo_shapes (c := ⟨2⟩) rfl
    (.shapeMethod 0 "area" 0) [] ⟨.initial, #[]⟩
  have habove : (Program.shapes (some .shape) (some .named) (some .square)).Above ⟨2⟩ ⟨0⟩ :=
    .single ⟨_, _, rfl, rfl, rfl⟩
  constructor
  · obtain ⟨_, b, base, j, _, hdeclares, _, hgives, _, hplace⟩ := hfields 0 _ rfl
    obtain ⟨defn, hdefn, hkind⟩ := hdeclares.owned
    cases hdefn
    cases hkind
    cases hplace habove
    exact hgives
  · obtain ⟨slot, hgives, _, hplace⟩ := hmethods ⟨0⟩ _ ⟨0⟩ 0 _ _ _ [] false 0
      ⟨⟨_, rfl, mem_singleton_self _⟩, _, rfl, rfl⟩ rfl rfl rfl rfl rfl rfl rfl
    cases hplace habove
    exact hgives

/-- On a `Square`, `label` and `show` of the interface `Named` are not. -/
theorem interface_operands_misplaced :
    (Program.shapes none none none).FlattensTo (.shapes (some .shape) (some .named) (some .square)) ∧
    (Program.shapes (some .shape) (some .named) (some .square)).layoutOf ⟨2⟩ = some .square ∧
    ClassLayout.square.fieldIndex? ⟨1⟩ = some 1 ∧
    (Site.fieldSlot ⟨.shapes (some .shape) (some .named) (some .square), .shapeMethod 0 "area" 0, []⟩
      ⟨1⟩).Gives ⟨.initial, #[]⟩ (0, .bits64) ⟨.initial, #[]⟩ ∧
    (Program.shapes (some .shape) (some .named) (some .square)).DeclaresMethod ⟨1⟩ ⟨1⟩ ∧
    ClassLayout.square.methods[1]?.bind
      (Program.shapes (some .shape) (some .named) (some .square)).methodName? =
        (Program.shapes (some .shape) (some .named) (some .square)).nameOf? ⟨1⟩ ∧
    (Site.dispatch ⟨.shapes (some .shape) (some .named) (some .square), .shapeMethod 0 "area" 0, []⟩
      (.ofClass ⟨2⟩) ⟨1⟩ 0).Gives ⟨.initial, #[]⟩ (.callVirtual 1 0) ⟨.initial, #[]⟩ := by
  refine ⟨flattensTo_shapes, rfl, by decide, rfl, ?_, rfl, rfl⟩
  exact ⟨⟨_, rfl, mem_singleton_self _⟩, _, rfl, rfl⟩

end StackBackend
