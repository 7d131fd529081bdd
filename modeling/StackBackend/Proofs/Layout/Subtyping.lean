import StackBackend.Proofs.Layout.FlatteningOrder
import StackBackend.Proofs.Layout.HierarchyWalks
import StackBackend.Proofs.Layout.Overrides

/-! Subtyping. A class is below its superclasses and below their interfaces, and what interfaces
are built on does not count. -/

namespace StackBackend

open List

open Relation (TransGen ReflTransGen)

namespace Program

variable {p : Program} {c b sup i : ClassId} {s t u : Ty}

/-! ## Classes -/

theorem Extends.builtOn (h : p.Extends c b) : p.BuiltOn c b := by
  obtain ⟨cls, st, hcls, hst, rfl⟩ := h
  exact ⟨cls, hcls, by simp [bases, hst]⟩

theorem Supplies.of_interface
    (hbuilt : ∀ c cls i b, p.classAt c = .ok cls → i ∈ cls.interfaces → p.BuiltOn i b → p.Supplies b c)
    {cls : ClassDecl} (hcls : p.classAt c = .ok cls) (hi : i ∈ cls.interfaces)
    (h : p.Supplies sup i) : p.Supplies sup c := by
  obtain ⟨a, habove, hend⟩ := h
  induction habove using ReflTransGen.head_induction_on generalizing c cls with
  | refl =>
    rcases hend with rfl | ⟨icls, hicls, hmem⟩
    · exact ⟨c, .refl, .inr ⟨cls, hcls, hi⟩⟩
    · exact hbuilt c cls a sup hcls hi ⟨icls, hicls, mem_append_right _ hmem⟩
  | head hstep habove ih =>
    obtain ⟨e, he, rfl | ⟨ecls, hecls, hmem⟩⟩ := hbuilt c cls _ _ hcls hi hstep.builtOn
    · exact ⟨a, he.trans habove, hend⟩
    · exact (ih hecls hmem).below he

/-! ## Types -/

theorem isSubtype_iff : p.isSubtype s t = .ok true ↔ s = .nothing ∨ s = .null ∧ t.isNullable = true ∨
    s = t ∨ ∃ a args n b args' m, s = .object a args n ∧ t = .object b args' m ∧
      (n = true → m = true) ∧ p.isSubclass a b = .ok true := by
  constructor
  · intro h
    unfold isSubtype at h
    split at h
    · exact .inl rfl
    · exact .inr (.inl ⟨rfl, Except.ok.inj h⟩)
    · split at h <;> rename_i hn
      · exact .inr (.inr (.inr ⟨_, _, _, _, _, _, rfl, rfl, by simpa [or_iff_not_imp_left] using hn, h⟩))
      · cases h
    · exact .inr (.inr (.inl (of_decide_eq_true (Except.ok.inj h))))
  · rintro (rfl | ⟨rfl, h⟩ | rfl | ⟨a, args, n, b, args', m, rfl, rfl, hn, h⟩)
    · rfl
    · exact congrArg Except.ok h
    · exact isSubtype_refl p s
    · change (if (!n || m) = true then p.isSubclass a b else pure false) = _
      rw [if_pos (by simpa [or_iff_not_imp_left] using hn)]
      exact h

theorem isSubtype_trans (hclass : ∀ {a b c}, p.isSubclass a b = .ok true →
      p.isSubclass b c = .ok true → p.isSubclass a c = .ok true)
    (h : p.isSubtype s t = .ok true) (h' : p.isSubtype t u = .ok true) :
    p.isSubtype s u = .ok true := by
  rw [isSubtype_iff] at h h' ⊢
  rcases h with rfl | ⟨rfl, ht⟩ | rfl | ⟨a, args, n, b, args', m, rfl, rfl, hn, hab⟩
  · exact .inl rfl
  · refine .inr (.inl ⟨rfl, ?_⟩)
    rcases h' with rfl | ⟨rfl, hu⟩ | rfl | ⟨_, _, _, _, _, _, rfl, rfl, hn, _⟩
    · cases ht
    · exact hu
    · exact ht
    · exact hn ht
  · exact h'
  · rcases h' with h' | ⟨h', _⟩ | rfl | ⟨_, _, _, c, _, k, h', rfl, hk, hbc⟩
    · cases h'
    · cases h'
    · exact .inr (.inr (.inr ⟨a, _, n, b, _, m, rfl, rfl, hn, hab⟩))
    · cases h'
      exact .inr (.inr (.inr ⟨a, _, n, c, _, k, rfl, rfl, hk ∘ hn, hclass hab hbc⟩))

/-- Every type is below itself. Subtyping is transitive just if each class is below what its
interfaces are built on. -/
theorem isSubtype_trans_iff (_ : ∀ c, ¬ TransGen p.BuiltOn c c) :
    (∀ s, p.isSubtype s s = .ok true) ∧
    ((∀ s t u, p.isSubtype s t = .ok true → p.isSubtype t u = .ok true →
      p.isSubtype s u = .ok true) ↔
    ∀ c cls i b, p.classAt c = .ok cls → i ∈ cls.interfaces → p.BuiltOn i b →
      p.isSubclass c b = .ok true) := by
  refine ⟨isSubtype_refl p, fun htrans c cls i b hcls hi hb => ?_, fun hbuilt s t u => ?_⟩
  · -- class types without arguments
    refine htrans (.object c [] false) (.object i [] false) (.object b [] false)
      (isSubclass_iff.mpr ⟨c, .refl, .inr ⟨cls, hcls, hi⟩⟩) (isSubclass_iff.mpr ?_)
    obtain ⟨icls, hicls, hmem⟩ := hb
    rcases mem_append.mp hmem with hmem | hmem
    · obtain ⟨st, hst, rfl⟩ := Option.map_eq_some_iff.mp (Option.mem_toList.mp hmem)
      exact ⟨st.cls, .single ⟨icls, st, hicls, hst, rfl⟩, .inl rfl⟩
    · exact ⟨i, .refl, .inr ⟨icls, hicls, hmem⟩⟩
  · refine isSubtype_trans fun {a b c} hab hbc => ?_
    simp only [isSubclass_iff] at hbuilt hab hbc ⊢
    obtain ⟨x, hx, rfl | ⟨cls, hcls, hmem⟩⟩ := hab
    · exact hbc.below hx
    · exact (hbc.of_interface hbuilt hcls hmem).below hx

end Program

/-! A class `A` with an interface `I`, which has the interface `J`. -/

def Program.layered (interfaces : List ClassId) : Program :=
  { Program.empty with
    classes := #[.shape 0 "J" none [] [] none, .shape 1 "I" none [⟨0⟩] [] none,
      .shape 2 "A" none interfaces [] none] }

open Program

/-- Unless it lists `J` too, `A` is not below it. -/
theorem interface_of_interface_not_above :
    (layered [⟨1⟩]).inheritanceOrder = .ok [⟨0⟩, ⟨1⟩, ⟨2⟩] ∧
    (layered [⟨1⟩]).isSubtype (.object ⟨2⟩ [] false) (.object ⟨1⟩ [] false) = .ok true ∧
    (layered [⟨1⟩]).isSubtype (.object ⟨1⟩ [] false) (.object ⟨0⟩ [] false) = .ok true ∧
    (layered [⟨1⟩]).isSubtype (.object ⟨2⟩ [] false) (.object ⟨0⟩ [] false) = .ok false := by
  refine ⟨?_, ?_, ?_, ?_⟩ <;> rfl

theorem isSubtype_trans_iff_layered :
    (layered [⟨1⟩, ⟨0⟩]).isSubtype (.object ⟨2⟩ [] false) (.object ⟨0⟩ [] false) = .ok true := by
  have hids : (layered [⟨1⟩, ⟨0⟩]).ClassesNumbered := by
    intro i cls hcls
    obtain ⟨hi, hcls⟩ := Array.getElem?_eq_some_iff.mp hcls
    change i < 3 at hi
    rcases i with _ | _ | _ | i <;> first | omega | (cases hcls; rfl)
  have horder : (layered [⟨1⟩, ⟨0⟩]).inheritanceOrder = .ok [⟨0⟩, ⟨1⟩, ⟨2⟩] := rfl
  refine (isSubtype_trans_iff (acyclic_of_inheritanceOrder hids horder)).2.mpr ?_ _
    (.object ⟨1⟩ [] false) _ rfl rfl
  rintro ⟨c⟩ cls i b hcls hi ⟨icls, hicls, hb⟩
  obtain ⟨hc, hcls⟩ := Array.getElem?_eq_some_iff.mp (entryAt_eq_ok.mp hcls)
  change c < 3 at hc
  rcases c with _ | _ | _ | c
  · cases hcls
    cases hi
  · cases hcls
    cases mem_singleton.mp hi
    cases hicls
    cases hb
  · cases hcls
    rcases mem_pair.mp hi with rfl | rfl
    · cases hicls
      cases mem_singleton.mp hb
      rfl
    · cases hicls
      cases hb
  · omega

end StackBackend
