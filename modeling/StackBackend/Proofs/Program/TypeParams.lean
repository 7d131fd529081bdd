import Mathlib.Data.List.Nodup
import StackBackend.Proofs.Program.Construction

/-! Type parameters of programs that are built step by step. Each is listed in one place, and
after the classes that are older have named their superclasses. -/

namespace StackBackend

open Pass

variable {p q : Program} {t : TypeParamId} {i j : Nat}
variable {new : Option TypeParamId} {ts ts' : List TypeParamId}

namespace Program

/-! ## What is listed where -/

/-- The class or one of its members lists the type parameter. -/
def Listed (p : Program) (j : Nat) (t : TypeParamId) : Prop :=
  (∃ cls, p.classes[j]? = some cls ∧ t ∈ cls.typeParams) ∨
    ∃ (k : Nat) (f : FunctionDecl), p.functions[k]? = some f ∧ f.kind.owner? = some ⟨j⟩ ∧
      t ∈ f.typeParams

/-- Type parameters that a class uses to name its superclass are its own, or are listed neither
there nor in a class that comes later. Members list type parameters of their own. -/
structure TypeParamsApart (p : Program) : Prop where
  listed : ∀ {j t}, p.Listed j t → t.index < p.typeParams.size
  used : ∀ {i cls st t}, p.classes[i]? = some cls → cls.supertype = some st →
    .typeParam t ∈ mentionsOfTys st.args → t ∉ cls.typeParams →
    t.index < p.typeParams.size ∧ ∀ {j}, i ≤ j → ¬ p.Listed j t
  nodup : ∀ {i : Nat} {cls : ClassDecl}, p.classes[i]? = some cls → cls.typeParams.Nodup
  own : ∀ {k : Nat} {f c}, p.functions[k]? = some f → f.kind.owner? = some c →
    f.typeParams.Nodup ∧ ∀ cls, p.classes[c.index]? = some cls → ∀ t ∈ f.typeParams, t ∉ cls.typeParams

theorem Listed.lt (h : p.Listed j t) (hp : p.Consistent) : j < p.classes.size := by
  obtain ⟨cls, hcls, _⟩ | ⟨k, f, hf, howner, _⟩ := h
  · exact lt_of_get hcls
  · exact (hp.function hf).owner howner

theorem GoesOn.mem (h : GoesOn new ts ts')
    (ht : t ∈ ts') : t ∈ ts ∨ new = some t := by
  obtain rfl | ⟨t', hnew, rfl⟩ := h
  · exact .inl ht
  · exact (List.mem_append.mp ht).imp id fun ht => by rw [List.mem_singleton.mp ht, hnew]

theorem GoesOn.subset (h : GoesOn new ts ts') :
    ts ⊆ ts' := by
  obtain rfl | ⟨_, _, rfl⟩ := h
  · exact List.Subset.refl _
  · exact List.subset_append_left _ _

theorem GoesOn.nodup (h : GoesOn new ts ts')
    (hts : ts.Nodup) (hnew : ∀ {t}, new = some t → t ∉ ts) : ts'.Nodup := by
  obtain rfl | ⟨t, ht, rfl⟩ := h
  · exact hts
  · rw [← List.concat_eq_append]
    exact hts.concat (hnew ht)

section

variable {inClass inMember : Option TypeParamId} (h : p.Grown q inClass inMember)
include h

theorem Grown.listed (hlisted : q.Listed j t) :
    p.Listed j t ∨ inClass = some t ∨ inMember = some t := by
  obtain ⟨cls, hcls, ht⟩ | ⟨k, f, hf, howner, ht⟩ := hlisted
  · obtain ⟨cls0, hcls0, hgrown⟩ | ⟨_, _, _, _, _, rfl, _⟩ := h.classes hcls
    · exact (hgrown.typeParams.mem ht).imp (fun ht => .inl ⟨cls0, hcls0, ht⟩) .inl
    · cases ht
  · obtain ⟨f0, hf0, hgrown⟩ | ⟨_, ⟨hnone | hnil, _⟩⟩ := h.functions hf
    · exact (hgrown.typeParams.mem ht).imp
        (fun ht => .inr ⟨k, f0, hf0, hgrown.kind ▸ howner, ht⟩) .inr
    · cases hnone.symm.trans howner
    · rw [hnil.1] at ht
      cases ht

variable (hp : p.TypeParamsApart)
include hp

theorem Grown.not_listed (ht : inClass = some t ∨ inMember = some t) : ¬ p.Listed j t := fun hj =>
  Nat.ne_of_lt (hp.listed hj) (h.new ht).1

theorem TypeParamsApart.step (hc : p.Consistent) : q.TypeParamsApart where
  listed hj := by
    rcases h.listed hj with hj | ht
    · exact (hp.listed hj).trans_le h.enlarges.typeParams
    · exact (h.new ht).2
  used {i cls st t} hcls hst ht hnot := by
    obtain ⟨cls0, hcls0, hgrown⟩ | ⟨rfl, _, _, _, _, rfl, hknown⟩ := h.classes hcls
    · obtain ⟨hlt, hnot⟩ := hp.used hcls0 (hgrown.supertype ▸ hst) ht fun ht =>
        hnot (hgrown.typeParams.subset ht)
      refine ⟨hlt.trans_le h.enlarges.typeParams, fun hij hj => ?_⟩
      exact (h.listed hj).elim (hnot hij) fun ht => Nat.ne_of_lt hlt (h.new ht).1
    · have hlt : t.index < p.typeParams.size := of_decide_eq_true (hknown st hst _ (.tail _ ht))
      refine ⟨hlt.trans_le h.enlarges.typeParams, fun hij hj => ?_⟩
      rcases h.listed hj with hj | ht
      · exact absurd (hj.lt hc) hij.not_gt
      · exact Nat.ne_of_lt hlt (h.new ht).1
  nodup {i cls} hcls := by
    obtain ⟨cls0, hcls0, hgrown⟩ | ⟨_, _, _, _, _, rfl, _⟩ := h.classes hcls
    · exact hgrown.typeParams.nodup (hp.nodup hcls0) fun ht hmem =>
        h.not_listed hp (.inl ht) (.inl ⟨_, hcls0, hmem⟩)
    · exact .nil
  own {k f c} hf howner := by
    obtain ⟨f0, hf0, hgrown⟩ | ⟨_, ⟨hnone | hnil, _⟩⟩ := h.functions hf
    · have hon := hgrown.typeParams
      rw [hgrown.kind] at howner
      obtain ⟨hnodup, hapart⟩ := hp.own hf0 howner
      have hmember : ∀ {t}, t ∈ f0.typeParams → p.Listed c.index t := fun ht =>
        .inr ⟨k, f0, hf0, howner, ht⟩
      refine ⟨?_, fun cls hcls t ht hmem => ?_⟩
      · exact hon.nodup hnodup fun ht hmem => h.not_listed hp (.inr ht) (hmember hmem)
      · obtain ⟨cls0, hcls0, hgrown'⟩ | ⟨_, _, _, _, _, rfl, _⟩ := h.classes hcls
        · rcases hon.mem ht with ht | ht <;> rcases hgrown'.typeParams.mem hmem with hmem | hmem
          · exact hapart cls0 hcls0 t ht hmem
          · exact h.not_listed hp (.inl hmem) (hmember ht)
          · exact h.not_listed hp (.inr ht) (.inl ⟨cls0, hcls0, hmem⟩)
          · rcases h.one with hnone | hnone
            · cases hnone.symm.trans hmem
            · cases hnone.symm.trans ht
        · cases hmem
    · cases hnone.symm.trans howner
    · rw [hnil.1]
      exact ⟨.nil, nofun⟩

end

/-! ## Construction -/

theorem TypeParamsApart.of_none (hclasses : ∀ cls ∈ p.classes.toList, cls.typeParams = [] ∧
      ∀ st ∈ cls.supertype, st.args = [])
    (hfunctions : ∀ f ∈ p.functions.toList, f.typeParams = []) : p.TypeParamsApart := by
  have hcls {i : Nat} {cls : ClassDecl} (h : p.classes[i]? = some cls) :=
    hclasses cls (Array.mem_toList_iff.mpr (Array.mem_of_getElem? h))
  have hf {i : Nat} {f : FunctionDecl} (h : p.functions[i]? = some f) :=
    hfunctions f (Array.mem_toList_iff.mpr (Array.mem_of_getElem? h))
  have hnone : ∀ {j t}, ¬ p.Listed j t := by
    rintro j t (⟨cls, h, ht⟩ | ⟨k, f, h, _, ht⟩)
    · rw [(hcls h).1] at ht
      cases ht
    · rw [hf h] at ht
      cases ht
  refine ⟨fun hj => absurd hj hnone, fun h hst ht => ?_, fun h => ?_, fun h _ => ?_⟩
  · rw [(hcls h).2 _ hst] at ht
    cases ht
  · rw [(hcls h).1]
    exact .nil
  · rw [hf h]
    exact ⟨.nil, nofun⟩

end Program

theorem Constructed.typeParamsApart (h : Constructed p) : p.TypeParamsApart := by
  induction h with
  | initial => exact .of_none (by decide +kernel) (by decide +kernel)
  | step hp hknown hgives ih =>
    obtain ⟨_, _, hgrown⟩ := Construction.grown hp.source hp.shaped.root hknown hgives
    exact ih.step hgrown hp.source.consistent

end StackBackend
