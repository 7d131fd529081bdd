import StackBackend.Proofs.Layout.SlotNames

/-! The order of flattening comes out unless a class is built on itself. In it every class finds the
tables of its superclass, which were computed in the same run. -/

namespace StackBackend

open Pass
open Relation (TransGen)

namespace Program

variable {p q : Program} {c b : ClassId} {e : Fault}

/-! ## Cycles -/

def BuiltOn (p : Program) (c b : ClassId) : Prop := ∃ cls, p.classAt c = .ok cls ∧ b ∈ bases cls

def BasesKnown (p : Program) : Prop := ∀ ⦃c b⦄, p.BuiltOn c b → b.index < p.classes.size

theorem exists_classAt (hc : c.index < p.classes.size) : ∃ cls, p.classAt c = .ok cls :=
  ⟨_, entryAt_eq_ok.mpr (Array.getElem?_eq_getElem hc)⟩

/-- A walk that does not come to its end has come back to a class that it is inside of. -/
theorem visitClass_error (hknown : p.BasesKnown) (steps : Nat) :
    ∀ {path order c}, c.index < p.classes.size → (∀ x ∈ path, TransGen p.BuiltOn x c) →
      p.visitClass steps path order c = .error e →
      (∃ name, e = .rejected (.inheritanceCycle name)) ∧ ∃ x, TransGen p.BuiltOn x x := by
  induction steps with
  | zero => nofun
  | succ steps ih =>
    intro path order c hc hpath h
    obtain ⟨cls, hcls⟩ := exists_classAt hc
    rw [visitClass, hcls] at h
    change (if _ then _ else _) = _ at h
    split at h
    · cases h
    split at h <;> rename_i hopen
    · cases h
      exact ⟨⟨_, rfl⟩, c, hpath c hopen⟩
    rcases Checked.bind_eq_error.mp h with h | ⟨_, _, h⟩
    · obtain ⟨b, hb, order', h⟩ := Checked.foldlM_eq_error _ h
      have hbuilt : p.BuiltOn c b := ⟨cls, hcls, hb⟩
      exact ih (hknown hbuilt) (List.forall_mem_cons.mpr
        ⟨.single hbuilt, fun x hx => (hpath x hx).tail hbuilt⟩) h
    · cases h

theorem inheritanceOrder_error (hids : p.ClassesNumbered) (hknown : p.BasesKnown)
    (h : p.inheritanceOrder = .error e) :
    (∃ name, e = .rejected (.inheritanceCycle name)) ∧ ∃ x, TransGen p.BuiltOn x x := by
  obtain ⟨c, hc, order, h⟩ := Checked.foldlM_eq_error _ h
  refine visitClass_error hknown _ ?_ (List.forall_mem_nil _) h
  obtain ⟨cls, hcls, rfl⟩ := List.mem_map.mp hc
  obtain ⟨i, hi⟩ := Array.mem_iff_getElem?.mp (Array.mem_toList_iff.mp hcls)
  rw [hids i cls hi]
  exact (Array.getElem?_eq_some_iff.mp hi).1

theorem Ordered.acyclic {order : List ClassId} (h : p.Ordered order) :
    ∀ c ∈ order, ¬ TransGen p.BuiltOn c c := by
  refine h.induction fun c cls hcls hb hcycle => ?_
  obtain ⟨b, hbuilt, hback⟩ := TransGen.head'_iff.mp hcycle
  obtain ⟨cls', hcls', hmem⟩ := id hbuilt
  cases hcls.symm.trans hcls'
  exact hb b hmem (.tail' hback hbuilt)

theorem acyclic_of_inheritanceOrder {order : List ClassId} (hids : p.ClassesNumbered)
    (h : p.inheritanceOrder = .ok order) (c : ClassId) : ¬ TransGen p.BuiltOn c c := by
  intro hcycle
  obtain ⟨_, ⟨_, hcls, _⟩, _⟩ := TransGen.head'_iff.mp hcycle
  have hc := mem_inheritanceOrder hids h (lt_size_of_entryAt hcls)
  exact (inheritanceOrder_ok h).1.acyclic c hc hcycle

/-! ## Runs -/

theorem agree_forM (cs : List ClassId) : ∀ {p : Program} {v : Unit},
    (cs.forM Pass.flattenClass).Gives p v q →
      p.AgreeButLayouts q ∧ ∀ b ∉ cs, q.layoutOf b = p.layoutOf b := by
  induction cs with
  | nil =>
    intro p v h
    obtain ⟨_, rfl⟩ := gives_pure.mp h
    exact ⟨.refl _, fun _ _ => rfl⟩
  | cons c rest ih =>
    intro p v h
    obtain ⟨_, p1, h1, h2⟩ := gives_bind.mp h
    obtain ⟨layout, _, hc, rfl⟩ := gives_flattenClass.mp h1
    obtain ⟨hagree, hkept⟩ := ih h2
    refine ⟨(agree_setLayout p c layout).trans hagree, fun b hb => ?_⟩
    rw [List.mem_cons, not_or] at hb
    rw [hkept b hb.2, layoutOf_setLayout hc, if_neg hb.1]

variable {pre post : List ClassId}

/-- When a class comes up, its superclass has the tables that were computed for it in this run. -/
theorem computed_before (ho : p.Ordered (pre ++ c :: post)) (hb : p.Extends c b)
    (h : (pre.forM Pass.flattenClass).Gives p () q) :
    ∃ before after r layout, pre = before ++ b :: after ∧
      (before.forM Pass.flattenClass).Gives p () r ∧ r.flattenClass b = .ok layout ∧
      q.layoutOf b = some layout := by
  obtain ⟨cls, st, hcls, hst, rfl⟩ := hb
  have hmem := ho.basesFirst rfl hcls st.cls (by simp [bases, hst])
  obtain ⟨before, after, rfl⟩ := List.append_of_mem hmem
  change (forM (before ++ _) Pass.flattenClass : Pass Unit).Gives p () q at h
  rw [List.forM_append] at h
  obtain ⟨_, r, hbefore, h⟩ := gives_bind.mp h
  obtain ⟨_, r1, h1, hafter⟩ := gives_bind.mp h
  obtain ⟨layout, hlayout, hlt, rfl⟩ := gives_flattenClass.mp h1
  have hnew := (List.nodup_cons.mp ho.nodup.of_append_left.of_append_right).1
  refine ⟨before, after, r, layout, rfl, hbefore, hlayout, ?_⟩
  rw [(agree_forM after hafter).2 _ hnew, layoutOf_setLayout hlt, if_pos rfl]

theorem exists_inheritedLayout {cls : ClassDecl} (ho : p.Ordered (pre ++ c :: post))
    (h : (pre.forM Pass.flattenClass).Gives p () q) (hcls : q.classAt c = .ok cls) :
    ∃ base, q.inheritedLayout cls = .ok base := by
  cases hst : cls.supertype with
  | none =>
    unfold inheritedLayout
    rw [hst]
    exact ⟨_, rfl⟩
  | some st =>
    obtain ⟨_, hcls'⟩ := (agree_forM pre h).1.symm.sees.classAt hcls
    obtain ⟨_, _, _, layout, _, _, _, hlayout⟩ := computed_before ho ⟨_, st, hcls', hst, rfl⟩ h
    exact ⟨layout, inheritedLayout_of_layoutOf hst hlayout⟩

theorem flattenClasses_error (hids : p.ClassesNumbered) (hknown : p.BasesKnown)
    (h : Pass.flattenClasses p = .error e q) : ∀ name, e ≠ .rejected (.layoutNotFinalized name) := by
  rintro name rfl
  rcases bind_eq_error.mp h with h | ⟨order, _, hask, h⟩
  · obtain ⟨⟨_, h⟩, _⟩ := inheritanceOrder_error hids hknown (ask_eq_error.mp h).1
    cases h
  obtain ⟨horder, hp⟩ := gives_ask.mp hask
  rw [hp] at h
  obtain ⟨pre, c, post, r, rfl, hpre, h⟩ := forM_eq_error order h
  have ho := (inheritanceOrder_ok horder).1
  rcases bind_eq_error.mp h with h | ⟨_, _, _, h⟩
  · have hcarries := (AgreeButLayouts.refl r).sees.flattenClass_carries (fun _ _ _ => trivial)
      fun {cls} hcls => by
        obtain ⟨base, hbase⟩ := exists_inheritedLayout ho hpre hcls
        exact ⟨base, hbase, fun _ _ => trivial, hbase⟩
    exact hcarries.tables name (ask_eq_error.mp h).1
  · rcases bind_eq_error.mp h with h | ⟨_, _, _, h⟩
    · exact entryAt_ne_rejected (ask_eq_error.mp h).1
    · cases h

/-- The order of flattening is exact: it comes out unless a class is built on itself, and has each
class once, after what it is built on. A class is not flattened before its superclass, whose tables
are those of the same run. -/
theorem inheritanceOrder_exact (hids : p.ClassesNumbered) (hknown : p.BasesKnown) :
    ((∃ name, p.inheritanceOrder = .error (.rejected (.inheritanceCycle name))) ↔
      ∃ c, TransGen p.BuiltOn c c) ∧
    ((∀ c, ¬ TransGen p.BuiltOn c c) → ∃ order, p.inheritanceOrder = .ok order ∧ order.Nodup ∧
      (∀ c, c ∈ order ↔ c.index < p.classes.size) ∧
      ∀ pre c post, order = pre ++ c :: post → (∀ b, p.BuiltOn c b → b ∈ pre) ∧
        ∀ b q, p.Extends c b → (pre.forM Pass.flattenClass).Gives p () q →
          ∃ before after r layout, pre = before ++ b :: after ∧
            (before.forM Pass.flattenClass).Gives p () r ∧ r.flattenClass b = .ok layout ∧
            q.layoutOf b = some layout) ∧
    ∀ e q, Pass.flattenClasses p = .error e q → ∀ name, e ≠ .rejected (.layoutNotFinalized name) := by
  refine ⟨⟨fun ⟨name, h⟩ => (inheritanceOrder_error hids hknown h).2, ?_⟩, ?_, fun e q => flattenClasses_error hids hknown⟩
  · rintro ⟨c, hcycle⟩
    cases h : p.inheritanceOrder with
    | error e =>
      obtain ⟨⟨name, rfl⟩, _⟩ := inheritanceOrder_error hids hknown h
      exact ⟨name, rfl⟩
    | ok order => exact absurd hcycle (acyclic_of_inheritanceOrder hids h c)
  · intro hacyclic
    cases h : p.inheritanceOrder with
    | error e =>
      obtain ⟨_, c, hcycle⟩ := inheritanceOrder_error hids hknown h
      exact absurd hcycle (hacyclic c)
    | ok order =>
      have ho := (inheritanceOrder_ok h).1
      refine ⟨order, rfl, ho.nodup, fun c => ⟨ho.known c, mem_inheritanceOrder hids h⟩, ?_⟩
      rintro pre c post rfl
      exact ⟨fun b ⟨cls, hcls, hb⟩ => ho.basesFirst rfl hcls b hb, fun b q => computed_before ho⟩

theorem inheritanceOrder_exact_shapes :
    (shapes none none none).inheritanceOrder = .ok [⟨0⟩, ⟨1⟩, ⟨2⟩] ∧
    ∀ c, ¬ TransGen (shapes none none none).BuiltOn c c := by
  have horder : (shapes none none none).inheritanceOrder = .ok [⟨0⟩, ⟨1⟩, ⟨2⟩] := rfl
  have hknown : (shapes none none none).BasesKnown := by
    rintro c b ⟨cls, hcls, hb⟩
    rcases mem_of_entryAt hcls with _ | ⟨_, _ | ⟨_, _ | ⟨_, ⟨⟩⟩⟩⟩
    · cases hb
    · cases hb
    · rcases List.mem_pair.mp hb with rfl | rfl <;> decide
  refine ⟨horder, fun c hcycle => ?_⟩
  obtain ⟨name, h⟩ := (inheritanceOrder_exact flattensTo_shapes.numbered hknown).1.mpr ⟨c, hcycle⟩
  rw [horder] at h
  cases h

end Program

end StackBackend
