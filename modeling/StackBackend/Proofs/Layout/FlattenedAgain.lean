import StackBackend.Proofs.Layout.Flattened
import StackBackend.Proofs.Program.SameSource

/-! Flattening once more. The tables of a class do not depend on generated code, and the
order of the classes does not depend on tables. So a flattened program, also after code
generation, has its classes in the same order, and each gets the tables it has. -/

namespace StackBackend

namespace Program

variable {p q : Program} {c : ClassId}

theorem source_sees (h : q.source = p.source) : p.Sees q fun _ => True where
  defnAt {d defn} hd := ⟨defn, by rw [source_defnAt h, hd], rfl, rfl⟩
  functionAt {f decl} hf := by
    obtain ⟨lowered, hf'⟩ := source_function h (entryAt_eq_ok.mp hf)
    exact ⟨_, functionAt_eq hf', rfl, rfl, fun _ => ⟨rfl, rfl, rfl⟩⟩
  classAt {c cls} hcls := ⟨cls.layout, by rw [source_classAt h, hcls]⟩
  reach c := .inl (by rw [source_classes h])

theorem source_isFlat (h : q.source = p.source) (hflat : p.IsFlat c) : q.IsFlat c := by
  obtain ⟨layout, hlayout, hc⟩ := hflat
  have hsame : ∀ c, q.layoutOf c = p.layoutOf c := fun c => by
    rw [layoutOf, layoutOf, source_classes h]
  exact ⟨layout, (hsame c).trans hlayout, (source_sees h).flattenClass (fun _ _ _ => trivial)
    (fun _ hbase => ⟨fun _ _ => trivial, inheritedLayout_same (fun st _ => hsame st.cls) hbase⟩) hc⟩

theorem AgreeButLayouts.ids (h : p.AgreeButLayouts q) :
    q.classes.toList.map ClassDecl.id = p.classes.toList.map ClassDecl.id := by
  refine List.ext_getElem? fun i => ?_
  have hclass := congrArg (Option.map ClassDecl.id) (h.classes i)
  simp only [Option.map_map] at hclass
  simp only [List.getElem?_map, Array.getElem?_toList]
  exact hclass

theorem Sees.inheritanceOrder {M : FunctionId → Prop} (h : p.Sees q M)
    (hsize : q.classes.size = p.classes.size)
    (hids : q.classes.toList.map ClassDecl.id = p.classes.toList.map ClassDecl.id) :
    p.inheritanceOrder.Carries q.inheritanceOrder := by
  unfold Program.inheritanceOrder
  rw [hids, hsize]
  exact .foldlM (I := fun _ => True) _ (fun _ _ _ _ => h.visitClass _) (fun _ _ _ _ _ _ => trivial)
    trivial

/-! ## Runs -/

theorem setLayout_self {layout : ClassLayout} (h : p.layoutOf c = some layout) :
    p.setLayout c layout = p := by
  obtain ⟨cls, hcls, hlayout⟩ := Option.bind_eq_some_iff.mp h
  have hclasses : p.classes.modify c.index ({ · with layout := some layout }) = p.classes := by
    refine Array.ext_getElem? fun i => ?_
    rw [Array.getElem?_modify]
    split
    · next hi =>
      subst hi
      rw [hcls, ← hlayout]
      rfl
    · rfl
  rw [setLayout, hclasses]

end Program

open Program

theorem Pass.flattenClass_again {p : Program} {c : ClassId} (hc : c.index < p.classes.size)
    (h : p.IsFlat c) : (Pass.flattenClass c).Gives p () p := by
  obtain ⟨layout, hlayout, hflat⟩ := h
  exact gives_flattenClass.mpr ⟨layout, hflat, hc, (setLayout_self hlayout).symm⟩

/-- A program that was flattened, and then got code, stays as it is when it is flattened. -/
theorem flattenClasses_again {p0 p q : Program} {v : Unit}
    (h : Pass.flattenClasses.Gives p0 v p) (hids : p0.ClassesNumbered)
    (hq : q.source = p.source) : Pass.flattenClasses.Gives q () q := by
  obtain ⟨hagree, hflat⟩ := flattened_of_flattenClasses h hids
  simp only [Pass.flattenClasses, Pass.gives_bind, Pass.gives_ask] at h ⊢
  obtain ⟨order, _, ⟨horder, rfl⟩, _⟩ := h
  have hknown : ∀ c ∈ order, c.index < p.classes.size := by
    rw [hagree.size]
    exact (inheritanceOrder_ok horder).1.known
  have horder' : q.inheritanceOrder = .ok order :=
    (source_sees hq).inheritanceOrder (by rw [source_classes hq]) (by rw [source_classes hq])
      (hagree.sees.inheritanceOrder hagree.size hagree.ids horder)
  refine ⟨order, q, ⟨horder', rfl⟩, Pass.forM_again order fun c hc => ?_⟩
  refine Pass.flattenClass_again ?_ (source_isFlat hq (hflat.flat c (hknown c hc)))
  rw [source_classes hq]
  exact hknown c hc

end StackBackend
