import StackBackend.Proofs.Layout.SlotNames
import StackBackend.Proofs.Lowering.Gives

/-! Calls of methods. A call through the table finds, in the class that the receiver turns out
to have, the entry with the name of the method. A direct call is meant to find the same entry. It
does so for a method that no class overrides, and for a receiver of a final class as long as that
class does not override the method itself. -/

namespace StackBackend

open Checked Lower

variable {p : Program} {b c r : ClassId} {m : FunctionId} {layout layout' : ClassLayout}

def ClassLayout.Holds (layout : ClassLayout) (m : FunctionId) : Prop :=
  ∃ s ∈ layout.methods, s.function = m

namespace Program

/-- The method is one of those of the class, and knows it. -/
structure DeclaresMethod (p : Program) (c : ClassId) (m : FunctionId) : Prop where
  listed : ∃ cls, p.classAt c = .ok cls ∧ m ∈ cls.methods
  owned : ∃ f, p.functionAt m = .ok f ∧ f.kind.owner? = some c

/-- The class adds the method to what it inherits, as its own or through an interface. -/
def Brings (p : Program) (c : ClassId) (m : FunctionId) : Prop :=
  ∃ cls, p.classAt c = .ok cls ∧
    (m ∈ cls.methods ∨ ∃ i ∈ cls.interfaces, ∃ source, p.classAt i = .ok source ∧ m ∈ source.methods)

/-- A class below the one that declares the method brings in another one with its name. -/
def Overridden (p : Program) (m : FunctionId) : Prop :=
  ∃ b c m', p.DeclaresMethod b m ∧ Relation.TransGen p.Extends c b ∧ p.Brings c m' ∧ m' ≠ m ∧
    p.nameOf? m' = p.nameOf? m

/-- The method that goes by the name of `m` in a table. -/
def carrier? (p : Program) (layout : ClassLayout) (m : FunctionId) : Option FunctionId :=
  (layout.methods.find? (p.methodName? · = p.nameOf? m)).map MethodSlot.function

end Program

open Program

/-! ## Tables along a chain of superclasses -/

theorem holds_addMethodSlot {m' : FunctionId} (h : p.addMethodSlot c layout m' = .ok layout')
    (hm : layout.Holds m) (hname : m' ≠ m → p.nameOf? m' ≠ p.nameOf? m) : layout'.Holds m := by
  obtain ⟨s, hs, rfl⟩ := hm
  by_cases hsame : m' = s.function
  · exact hsame ▸ mem_addMethodSlot h
  · exact ⟨s, mem_of_addMethodSlot h hs (hname hsame).symm, rfl⟩

theorem holds_addMethodSlots (methods : List FunctionId)
    (h : methods.foldlM (p.addMethodSlot c) layout = .ok layout') (hm : layout.Holds m)
    (hnames : ∀ m' ∈ methods, m' ≠ m → p.nameOf? m' ≠ p.nameOf? m) : layout'.Holds m :=
  foldlM_invariant (I := (·.Holds m)) methods h hm fun m' hm' _ _ hm hadd =>
    holds_addMethodSlot hadd hm (hnames m' hm')

theorem holds_addInterfaces (interfaces : List ClassId)
    (h : interfaces.foldlM (p.addInterface c) layout = .ok layout') (hm : layout.Holds m)
    (hnames : ∀ i ∈ interfaces, ∀ source, p.classAt i = .ok source →
      ∀ m' ∈ source.methods, m' ≠ m → p.nameOf? m' ≠ p.nameOf? m) : layout'.Holds m := by
  refine foldlM_invariant (I := (·.Holds m)) interfaces h hm fun i hi _ _ hm hadd => ?_
  obtain ⟨source, hsource, hadd⟩ := bind_eq_ok.mp hadd
  obtain ⟨layout0, hfields, hmethods⟩ := bind_eq_ok.mp hadd
  refine holds_addMethodSlots _ hmethods ?_ (hnames i hi source hsource)
  unfold ClassLayout.Holds
  rw [methods_addFieldSlots _ hfields]
  exact hm

namespace Program.Flattened

variable (h : p.Flattened)
include h

theorem holds_of_inherited {cls : ClassDecl} {base : ClassLayout} (hcls : p.classAt c = .ok cls)
    (hbase : p.inheritedLayout cls = .ok base) (hc : p.layoutOf c = some layout)
    (hm : base.Holds m)
    (hnames : ∀ m', p.Brings c m' → m' ≠ m → p.nameOf? m' ≠ p.nameOf? m) : layout.Holds m := by
  obtain ⟨base', layout1, layout2, hbase', hinterfaces, hfields, hmethods⟩ := h.made_of hcls hc
  cases hbase.symm.trans hbase'
  have hmixed : layout1.Holds m := holds_addInterfaces _ hinterfaces hm
    fun i hi source hsource m' hm' => hnames m' ⟨cls, hcls, .inr ⟨i, hi, source, hsource, hm'⟩⟩
  refine holds_addMethodSlots _ (foldlM_of_addOwnMethods _ hmethods) ?_ fun m' hm' => hnames m' ⟨cls, hcls, .inl hm'⟩
  unfold ClassLayout.Holds
  rw [methods_addFieldSlots _ hfields]
  exact hmixed

theorem holds_of_declares (hm : p.DeclaresMethod c m) (hc : p.layoutOf c = some layout) :
    layout.Holds m := by
  obtain ⟨cls, hcls, hmem⟩ := hm.listed
  exact (h.tabulates hcls hc).methods m hmem

theorem holds_of_not_overridden (hrb : p.Above r b) (hm : p.DeclaresMethod b m)
    (hno : ¬ p.Overridden m)
    (hr : p.layoutOf r = some layout) : layout.Holds m := by
  induction hrb using Relation.ReflTransGen.head_induction_on generalizing layout with
  | refl => exact h.holds_of_declares hm hr
  | head hstep hrest ih =>
    obtain ⟨cls, st, hcls, hst, rfl⟩ := hstep
    obtain ⟨base, hbase, _⟩ := h.tables_cases hcls hr
    refine h.holds_of_inherited hcls hbase hr (ih (layoutOf_of_inheritedLayout hst hbase)) ?_
    intro m' hbrings hne hname
    exact hno ⟨b, _, m', hm, .head' ⟨cls, st, hcls, hst, rfl⟩ hrest, hbrings, hne, hname⟩

/-- In the table of a class below, a slot still has the name of the method it was for. -/
theorem carrier?_of_slot {base : ClassLayout} {i : Nat} {s : MethodSlot} (hrc : p.Above r c)
    (hr : p.layoutOf r = some layout) (hc : p.layoutOf c = some base)
    (hs : base.methods[i]? = some s) (hsm : s.function = m) :
    ∃ s', layout.methods[i]? = some s' ∧ p.carrier? layout m = some s'.function := by
  obtain ⟨s', hs', hname⟩ := (h.continues hrc hr hc).methodName? hs
  refine ⟨s', hs', ?_⟩
  have hname' : p.methodName? s' = p.nameOf? m := by rw [hname, methodName?, hsm]; rfl
  obtain ⟨found, hfound⟩ : ∃ found, layout.methods.find? (p.methodName? · = p.nameOf? m) = some found :=
    Option.isSome_iff_exists.mp (List.find?_isSome.mpr
      ⟨s', List.mem_of_getElem? hs', by simpa using hname'⟩)
  obtain ⟨j, hj⟩ := List.mem_iff_getElem?.mp (List.mem_of_find?_eq_some hfound)
  have hsame : p.methodName? found = p.methodName? s' := by
    rw [hname']
    simpa using List.find?_some hfound
  have hij := (h.distinct hr).slot_unique hj hs' hsame
  subst hij
  cases hj.symm.trans hs'
  rw [carrier?, hfound]
  rfl

theorem carrier?_eq_self_iff (hc : p.layoutOf c = some layout) :
    p.carrier? layout m = some m ↔ layout.Holds m := by
  constructor
  · intro hcarrier
    obtain ⟨s, hs, rfl⟩ := Option.map_eq_some_iff.mp hcarrier
    exact ⟨s, List.mem_of_find?_eq_some hs, rfl⟩
  · rintro ⟨s, hs, hsm⟩
    obtain ⟨i, hi⟩ := List.mem_iff_getElem?.mp hs
    obtain ⟨s', hs', hcarrier⟩ := h.carrier?_of_slot .refl hc hc hi hsm
    cases hi.symm.trans hs'
    rw [hcarrier, hsm]

end Program.Flattened

/-! ## Which call is chosen -/

/-- The function that a call runs if the receiver has the given method table. -/
def Inst.invoked? (layout : ClassLayout) : Inst → Option FunctionId
  | .call f => some f
  | .callVirtual _ slot => (layout.methods[slot]?).map MethodSlot.function
  | _ => none

namespace Site

variable {site : Site} {f : FunctionDecl} {cls : ClassDecl} {args : List Ty} {nullable : Bool}
  {argc : Nat} {s : LowerState}

theorem slotIn?_eq (hc : p.layoutOf c = some layout) :
    slotIn? p m c = .ok (layout.methodSlot? m) := by
  obtain ⟨cls, hcls, hlayout⟩ := Option.bind_eq_some_iff.mp hc
  refine bind_eq_ok.mpr ⟨cls, entryAt_eq_ok.mpr hcls, ?_⟩
  rw [hlayout]
  rfl

theorem firstSlot?_cons {rest : List ClassId} (hc : p.layoutOf c = some layout) :
    firstSlot? p m (c :: rest) = match layout.methodSlot? m with
      | some slot => .ok (some slot)
      | none => firstSlot? p m rest := by
  rw [firstSlot?, slotIn?_eq hc]
  change (match layout.methodSlot? m with
    | some slot => pure (some slot)
    | none => firstSlot? p m rest) = _
  cases layout.methodSlot? m with
  | none => rfl
  | some slot => rfl

theorem dispatch_direct (hf : site.program.functionAt m = .ok f)
    (hcls : site.program.classAt c = .ok cls) (hfinal : f.isFinal = true ∨ cls.isFinal = true) :
    (site.dispatch (.object c args nullable) m argc).Gives s (.call m) s := by
  refine gives_bind.mpr ⟨f, s, gives_lift.mpr ⟨hf, rfl⟩, ?_⟩
  split
  · exact gives_pure.mpr ⟨rfl, rfl⟩
  · rename_i hopen
    have hcls' : cls.isFinal = true := hfinal.resolve_left fun h => hopen (by simp [h])
    refine gives_bind.mpr ⟨true, s, gives_lift.mpr ⟨?_, rfl⟩, ?_⟩
    · exact bind_eq_ok.mpr ⟨cls, hcls, by rw [hcls']; rfl⟩
    · exact gives_pure.mpr ⟨rfl, rfl⟩

/-- Other methods are called through the table, at the first slot that is found in the class
of the receiver and in the class that declares the method. -/
theorem dispatch_virtual {slot : Nat} (hf : site.program.functionAt m = .ok f)
    (hcls : site.program.classAt c = .ok cls) (hmethod : f.isFinal = false)
    (hclass : cls.isFinal = false)
    (hslot : firstSlot? site.program m (c :: f.kind.owner?.toList) = .ok (some slot)) :
    (site.dispatch (.object c args nullable) m argc).Gives s (.callVirtual (argc + 1) slot) s := by
  refine gives_bind.mpr ⟨f, s, gives_lift.mpr ⟨hf, rfl⟩, ?_⟩
  have hopen : (!(Ty.object c args nullable).isObject || f.isFinal) = false := by rw [hmethod]; rfl
  rw [if_neg (by rw [hopen]; exact Bool.false_ne_true)]
  refine gives_bind.mpr ⟨false, s, gives_lift.mpr ⟨?_, rfl⟩, ?_⟩
  · exact bind_eq_ok.mpr ⟨cls, hcls, by rw [hclass]; rfl⟩
  rw [if_neg Bool.false_ne_true]
  refine gives_bind.mpr ⟨some slot, s, gives_lift.mpr ⟨hslot, rfl⟩, ?_⟩
  exact gives_bind.mpr ⟨slot, s, gives_orFail.mpr ⟨rfl, rfl⟩, gives_pure.mpr ⟨rfl, rfl⟩⟩

end Site

namespace Program.Flattened

variable (h : p.Flattened)
include h

theorem exists_layout {cls : ClassDecl} (hcls : p.classAt c = .ok cls) :
    ∃ layout, p.layoutOf c = some layout := by
  obtain ⟨layout, hlayout, _⟩ := h.flat c (lt_size_of_entryAt hcls)
  exact ⟨layout, hlayout⟩

/-- The slot at which a method is called is its slot in a class above the receiver's. -/
theorem exists_slot {owner : ClassDecl} (hcb : p.Above c b) (hm : p.DeclaresMethod b m)
    (hb : p.classAt b = .ok owner) (hc : p.layoutOf c = some layout) :
    ∃ slot a tables s, Site.firstSlot? p m [c, b] = .ok (some slot) ∧ p.Above c a ∧
      p.layoutOf a = some tables ∧ tables.methods[slot]? = some s ∧ s.function = m := by
  rw [Site.firstSlot?_cons hc]
  cases hslot : layout.methodSlot? m with
  | some slot =>
    obtain ⟨s, hs, hsm⟩ := (h.distinct hc).indexed.method.mp hslot
    exact ⟨slot, c, layout, s, rfl, .refl, hc, hs, hsm⟩
  | none =>
    obtain ⟨tables, htables⟩ := h.exists_layout hb
    obtain ⟨s, hs, hsm⟩ := h.holds_of_declares hm htables
    obtain ⟨slot, hs⟩ := List.mem_iff_getElem?.mp hs
    refine ⟨slot, b, tables, s, ?_, hcb, htables, hs, hsm⟩
    rw [Site.firstSlot?_cons htables, (h.distinct htables).indexed.method.mpr ⟨s, hs, hsm⟩]

end Program.Flattened

theorem Program.Above.eq_of_isFinal {cls : ClassDecl} (hrc : p.Above r c)
    (hclasses : ∀ c b cls, p.Extends c b → p.classAt b = .ok cls → cls.isFinal = false)
    (hcls : p.classAt c = .ok cls) (hfinal : cls.isFinal = true) : r = c := by
  cases Relation.ReflTransGen.cases_tail hrc with
  | inl heq => exact heq.symm
  | inr hstep =>
    obtain ⟨x, _, hx⟩ := hstep
    rw [hclasses x c cls hx hcls] at hfinal
    cases hfinal

/-- Where no class is derived from a final one and no final method is overridden, a call of a
method always comes out, and it runs the entry with the name of the method in the table of every
class that the receiver may turn out to have, with one exception: on a receiver of a final class
it runs the method that it names, even if that class has another one in its place. -/
theorem calls_run_carrier_iff {p₀ p : Program} (h : Pass.flattenClasses.Gives p₀ () p)
    (hids : p₀.ClassesNumbered)
    (hclasses : ∀ c b cls, p.Extends c b → p.classAt b = .ok cls → cls.isFinal = false)
    (hmethods : ∀ m f, p.functionAt m = .ok f → f.isFinal = true → ¬ p.Overridden m)
    {c b : ClassId} {m : FunctionId} {cls : ClassDecl} {layout : ClassLayout}
    (hcb : p.Above c b) (hm : p.DeclaresMethod b m) (hcls : p.classAt c = .ok cls)
    (hc : p.layoutOf c = some layout) (f : FunctionDecl) (slots : List LocalSlot)
    (args : List Ty) (nullable : Bool) (argc : Nat) (s : LowerState) :
    ∃ i, (Site.dispatch ⟨p, f, slots⟩ (.object c args nullable) m argc).Gives s i s ∧
      ((∀ r tables, p.Above r c → p.layoutOf r = some tables →
          ∃ g, i.invoked? tables = some g ∧ p.carrier? tables m = some g) ↔
        (cls.isFinal = true → layout.Holds m)) := by
  obtain ⟨_, hflat⟩ := flattened_of_flattenClasses h hids
  obtain ⟨target, htarget, howner⟩ := hm.owned
  obtain ⟨owner, hb, _⟩ := hm.listed
  by_cases hmethod : target.isFinal = true
  · -- No class below has another method with the name.
    have hall : ∀ r tables, p.Above r c → p.layoutOf r = some tables → tables.Holds m :=
      fun r tables hrc => hflat.holds_of_not_overridden (hrc.trans hcb) hm (hmethods m target htarget hmethod)
    refine ⟨_, Site.dispatch_direct htarget hcls (.inl hmethod), fun _ _ => hall c layout .refl hc, ?_⟩
    intro _ r tables hrc hr
    exact ⟨m, rfl, (hflat.carrier?_eq_self_iff hr).mpr (hall r tables hrc hr)⟩
  by_cases hclass : cls.isFinal = true
  · -- The receiver has the class itself.
    refine ⟨_, Site.dispatch_direct htarget hcls (.inr hclass), fun hall _ => ?_, fun hholds r tables hrc hr => ?_⟩
    · obtain ⟨g, hg, hcarrier⟩ := hall c layout .refl hc
      cases hg
      exact (hflat.carrier?_eq_self_iff hc).mp hcarrier
    · obtain rfl := hrc.eq_of_isFinal hclasses hcls hclass
      cases hc.symm.trans hr
      exact ⟨m, rfl, (hflat.carrier?_eq_self_iff hc).mpr (hholds hclass)⟩
  · obtain ⟨slot, a, base, entry, hslot, hca, ha, hentry, hsame⟩ := hflat.exists_slot hcb hm hb hc
    rw [Bool.not_eq_true] at hmethod hclass
    have hfirst : Site.firstSlot? p m (c :: target.kind.owner?.toList) = .ok (some slot) := by
      rw [howner]
      exact hslot
    refine ⟨_, Site.dispatch_virtual htarget hcls hmethod hclass hfirst, fun _ hfinal => ?_,
      fun _ r tables hrc hr => ?_⟩
    · rw [hclass] at hfinal
      cases hfinal
    · obtain ⟨s', hs', hcarrier⟩ := hflat.carrier?_of_slot (hrc.trans hca) hr ha hentry hsame
      exact ⟨s'.function, by rw [Inst.invoked?, hs']; rfl, hcarrier⟩

/-- A receiver of type `Square` on which `area` of `Shape` is called: the call goes through the
table and runs what `Square` has in its place. -/
theorem calls_run_carrier_iff_shapes :
    ∃ i, (Site.dispatch ⟨.shapes (some .shape) (some .named) (some .square), .shapeMethod 0 "area" 0, []⟩
        (.ofClass ⟨2⟩) ⟨0⟩ 0).Gives ⟨.initial, #[]⟩ i ⟨.initial, #[]⟩ ∧
      i.invoked? .square = some ⟨4⟩ := by
  have hclasses : ∀ c b cls, (Program.shapes (some .shape) (some .named) (some .square)).Extends c b →
      (Program.shapes (some .shape) (some .named) (some .square)).classAt b = .ok cls →
      cls.isFinal = false := by
    intro c b cls _ hcls
    obtain ⟨hi, hcls⟩ := Array.getElem?_eq_some_iff.mp (entryAt_eq_ok.mp hcls)
    match b, hi with
    | ⟨0⟩, _ | ⟨1⟩, _ | ⟨2⟩, _ => cases hcls; rfl
  have hmethods : ∀ m f, (Program.shapes (some .shape) (some .named) (some .square)).functionAt m = .ok f →
      f.isFinal = true → ¬ (Program.shapes (some .shape) (some .named) (some .square)).Overridden m := by
    intro m f hf hfinal
    obtain ⟨hi, hf⟩ := Array.getElem?_eq_some_iff.mp (entryAt_eq_ok.mp hf)
    match m, hi with
    | ⟨0⟩, _ | ⟨1⟩, _ | ⟨2⟩, _ | ⟨3⟩, _ | ⟨4⟩, _ => cases hf; cases hfinal
  have habove : (Program.shapes (some .shape) (some .named) (some .square)).Above ⟨2⟩ ⟨0⟩ :=
    .single ⟨_, _, rfl, rfl, rfl⟩
  have hdeclares : (Program.shapes (some .shape) (some .named) (some .square)).DeclaresMethod ⟨0⟩ ⟨0⟩ :=
    ⟨⟨_, rfl, List.mem_singleton_self _⟩, _, rfl, rfl⟩
  obtain ⟨i, hi, hiff⟩ := calls_run_carrier_iff flattensTo_shapes.gives
    flattensTo_shapes.numbered hclasses hmethods habove hdeclares rfl rfl
    (.shapeMethod 0 "area" 0) [] [] false 0 ⟨.initial, #[]⟩
  obtain ⟨g, hg, hcarrier⟩ := hiff.mpr (fun hfinal => nomatch hfinal) ⟨2⟩ .square .refl rfl
  have hfound : (Program.shapes (some .shape) (some .named) (some .square)).carrier? .square ⟨0⟩ =
      some ⟨4⟩ := by decide
  exact ⟨i, hi, hg.trans (hcarrier.symm.trans hfound)⟩

/-! A final class `Leaf` below `Tree`, which replaces its `grow`. -/

def Program.trees (tree leaf : Option ClassLayout) : Program :=
  { Program.empty with
    definitions := #[⟨⟨0⟩, "height", .field ⟨0⟩, .i32, true, ⟨0⟩⟩,
      ⟨⟨1⟩, "width", .field ⟨1⟩, .i32, true, ⟨0⟩⟩]
    classes := #[.shape 0 "Tree" none [] [⟨0⟩] tree,
      { ClassDecl.shape 1 "Leaf" (some ⟨⟨0⟩, [], false⟩) [] [⟨1⟩] leaf with isFinal := true }]
    functions := #[.shapeMethod 0 "grow" 0, .shapeMethod 1 "grow" 1] }

def ClassLayout.tree : ClassLayout := ⟨[⟨⟨0⟩, .bits32⟩], [⟨⟨0⟩, some .bits32⟩]⟩

def ClassLayout.leaf : ClassLayout :=
  ⟨[⟨⟨0⟩, .bits32⟩, ⟨⟨1⟩, .bits32⟩], [⟨⟨1⟩, some .bits32⟩]⟩

/-- On a receiver of type `Leaf` a call of `grow` of `Tree` runs just that, although the table
of `Leaf` has another method with that name. -/
theorem final_receiver_misses_override :
    Pass.flattenClasses.Gives (.trees none none) () (.trees (some .tree) (some .leaf)) ∧
    (Program.trees none none).ClassesNumbered ∧
    (∀ c b cls, (Program.trees (some .tree) (some .leaf)).Extends c b →
      (Program.trees (some .tree) (some .leaf)).classAt b = .ok cls → cls.isFinal = false) ∧
    (∀ m f, (Program.trees (some .tree) (some .leaf)).functionAt m = .ok f → f.isFinal = true →
      ¬ (Program.trees (some .tree) (some .leaf)).Overridden m) ∧
    (Program.trees (some .tree) (some .leaf)).Above ⟨1⟩ ⟨0⟩ ∧
    (Program.trees (some .tree) (some .leaf)).DeclaresMethod ⟨0⟩ ⟨0⟩ ∧
    (∀ f slots argc s, (Site.dispatch ⟨.trees (some .tree) (some .leaf), f, slots⟩ (.ofClass ⟨1⟩) ⟨0⟩
      argc).Gives s (.call ⟨0⟩) s) ∧
    (Program.trees (some .tree) (some .leaf)).layoutOf ⟨1⟩ = some .leaf ∧
    (Inst.call ⟨0⟩).invoked? .leaf = some ⟨0⟩ ∧
    (Program.trees (some .tree) (some .leaf)).carrier? .leaf ⟨0⟩ = some ⟨1⟩ := by
  refine ⟨?_, ?_, ?_, ?_, .single ⟨_, _, rfl, rfl, rfl⟩, ?_, ?_, rfl, rfl, ?_⟩
  · rfl
  · intro i cls hcls
    obtain ⟨hi, hcls⟩ := Array.getElem?_eq_some_iff.mp hcls
    change i < 2 at hi
    rcases i with _ | _ | i <;> first | omega | (cases hcls; rfl)
  · rintro c b cls ⟨_, st, hc, hst, rfl⟩ hcls
    rcases mem_of_entryAt hc with _ | ⟨_, _ | ⟨_, ⟨⟩⟩⟩ <;> cases hst
    cases hcls
    rfl
  · intro m f hf hfinal
    rcases mem_of_entryAt hf with _ | ⟨_, _ | ⟨_, ⟨⟩⟩⟩ <;> cases hfinal
  · exact ⟨⟨_, rfl, List.mem_singleton_self _⟩, _, rfl, rfl⟩
  · intro f slots argc s
    exact Site.dispatch_direct rfl rfl (.inr rfl)
  · decide

end StackBackend
