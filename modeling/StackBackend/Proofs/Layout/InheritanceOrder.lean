import Mathlib.Data.List.Nodup
import Mathlib.Data.List.Perm.Subperm
import StackBackend.Layout.Order
import StackBackend.Proofs.Program.PassGives

/-! The order in which classes are flattened: every class once, and what it is built
on before it. -/

namespace StackBackend.Program

open List

variable {p : Program} {c : ClassId} {order order' path : List ClassId}

/-- Each class comes once, after what it is built on. -/
structure Ordered (p : Program) (order : List ClassId) : Prop where
  nodup : order.Nodup
  known : ∀ c ∈ order, c.index < p.classes.size
  basesFirst : ∀ {pre c post cls}, order = pre ++ c :: post → p.classAt c = .ok cls →
    ∀ b ∈ bases cls, b ∈ pre

theorem Ordered.nil : p.Ordered [] where
  nodup := .nil
  known _ h := nomatch h
  basesFirst h := by simp at h

theorem Ordered.snoc {cls : ClassDecl} (h : p.Ordered order) (hc : c ∉ order)
    (hcls : p.classAt c = .ok cls) (hb : ∀ b ∈ bases cls, b ∈ order) : p.Ordered (order ++ [c]) where
  nodup := nodup_append.mpr ⟨h.nodup, nodup_singleton c, fun a ha b hb => by
    rintro rfl
    exact hc (mem_singleton.mp hb ▸ ha)⟩
  known x hx := by
    rcases mem_append.mp hx with hx | hx
    · exact h.known x hx
    · rw [mem_singleton.mp hx]
      exact lt_size_of_entryAt hcls
  basesFirst {pre x post xcls} heq hx := by
    rcases eq_nil_or_concat post with rfl | ⟨before, last, rfl⟩
    · obtain ⟨rfl, hxc⟩ := append_inj' heq rfl
      cases hxc
      cases hcls.symm.trans hx
      exact hb
    · rw [List.concat_eq_append, ← cons_append, ← append_assoc] at heq
      exact h.basesFirst (append_inj' heq rfl).1 hx

/-- A property that passes from what a class is built on to the class. -/
theorem Ordered.induction {P : ClassId → Prop} (h : p.Ordered order)
    (step : ∀ c cls, p.classAt c = .ok cls → (∀ b ∈ bases cls, P b) → P c) : ∀ c ∈ order, P c := by
  have hpre : ∀ n, ∀ {pre c post}, order = pre ++ c :: post → pre.length = n → P c := by
    intro n
    induction n using Nat.strongRecOn with
    | ind n ih =>
      intro pre c post heq hlen
      have hc := h.known c (by simp [heq])
      have hcls : p.classAt c = .ok p.classes[c.index] :=
        entryAt_eq_ok.mpr (Array.getElem?_eq_getElem hc)
      refine step c _ hcls fun b hb => ?_
      obtain ⟨before, after, rfl⟩ := append_of_mem (h.basesFirst heq hcls b hb)
      refine ih before.length ?_ (by rw [heq, append_assoc, cons_append]) rfl
      simp only [length_append, length_cons] at hlen
      omega
  intro c hc
  obtain ⟨pre, post, heq⟩ := append_of_mem hc
  exact hpre _ heq rfl

structure Visited (p : Program) (path order order' : List ClassId) : Prop where
  ordered : p.Ordered order'
  kept : ∀ c ∈ order, c ∈ order'
  added : ∀ c ∈ order', c ∈ order ∨ c ∉ path

theorem Visited.trans {order'' : List ClassId} (h : p.Visited path order order')
    (h' : p.Visited path order' order'') : p.Visited path order order'' where
  ordered := h'.ordered
  kept c hc := h'.kept c (h.kept c hc)
  added c hc := (h'.added c hc).elim (h.added c) .inr

theorem length_path_le (hpath : path.Nodup) (hknown : ∀ c ∈ path, c.index < p.classes.size) :
    path.length ≤ p.classes.size := by
  have hnodup : (path.map Ref.index).Nodup := hpath.map fun _ _ => Ref.ext_index
  have hsub : path.map Ref.index ⊆ List.range p.classes.size := by
    intro n hn
    obtain ⟨c, hc, rfl⟩ := mem_map.mp hn
    exact mem_range.mpr (hknown c hc)
  simpa using (List.subperm_of_subset hnodup hsub).length_le

theorem visited_foldlM {visit : List ClassId → ClassId → Checked (List ClassId)}
    (hvisit : ∀ {order c order'}, p.Ordered order → visit order c = .ok order' →
      p.Visited path order order' ∧ c ∈ order') (cs : List ClassId) :
    ∀ {order order'}, p.Ordered order → cs.foldlM visit order = .ok order' →
      p.Visited path order order' ∧ ∀ c ∈ cs, c ∈ order' := by
  induction cs with
  | nil =>
    intro order order' ho h
    cases h
    exact ⟨⟨ho, fun _ h => h, fun _ h => .inl h⟩, fun _ h => nomatch h⟩
  | cons c rest ih =>
    intro order order' ho h
    obtain ⟨order1, h1, h2⟩ := Checked.bind_eq_ok.mp (List.foldlM_cons (m := Checked) ▸ h)
    obtain ⟨v1, hc⟩ := hvisit ho h1
    obtain ⟨v2, hrest⟩ := ih v1.ordered h2
    exact ⟨v1.trans v2, forall_mem_cons.mpr ⟨v2.kept c hc, hrest⟩⟩

/-- The walk is never cut short: the classes it is inside of differ. -/
theorem visitClass_ok : ∀ {steps : Nat} {path order order' : List ClassId} {c : ClassId},
    path.Nodup → (∀ x ∈ path, x.index < p.classes.size) →
    p.classes.size < path.length + steps → p.Ordered order →
    p.visitClass steps path order c = .ok order' → p.Visited path order order' ∧ c ∈ order'
  | 0, path, order, order', c, hpath, hknown, hsteps, _, _ => by
    have := length_path_le hpath hknown
    omega
  | steps + 1, path, order, order', c, hpath, hknown, hsteps, ho, h => by
    obtain ⟨cls, hcls, h⟩ := Checked.bind_eq_ok.mp h
    split at h
    · cases h
      exact ⟨⟨ho, fun _ h => h, fun _ h => .inl h⟩, ‹_›⟩
    rename_i hnew
    split at h
    · cases h
    rename_i hopen
    obtain ⟨order1, h1, h⟩ := Checked.bind_eq_ok.mp h
    cases h
    have hinside : ∀ x ∈ c :: path, x.index < p.classes.size :=
      forall_mem_cons.mpr ⟨lt_size_of_entryAt hcls, hknown⟩
    obtain ⟨v, hbases⟩ := visited_foldlM (fun ho h => visitClass_ok
      (nodup_cons.mpr ⟨hopen, hpath⟩) hinside (by simp; omega) ho h) (bases cls) ho h1
    -- A visit inside `c` does not add `c`.
    have hc : c ∉ order1 := fun hm => (v.added c hm).elim hnew fun h => h (.head _)
    refine ⟨⟨v.ordered.snoc hc hcls hbases, fun x hx => mem_append_left _ (v.kept x hx), ?_⟩,
      by simp⟩
    intro x hx
    rcases mem_append.mp hx with hx | hx
    · exact (v.added x hx).imp id fun h hm => h (mem_cons_of_mem c hm)
    · rw [mem_singleton.mp hx]
      exact .inr hopen

theorem inheritanceOrder_ok (h : p.inheritanceOrder = .ok order) :
    p.Ordered order ∧ ∀ cls ∈ p.classes.toList, cls.id ∈ order := by
  obtain ⟨v, hall⟩ := visited_foldlM (fun ho h => visitClass_ok .nil (fun _ h => nomatch h)
    (by simp) ho h) _ .nil h
  exact ⟨v.ordered, fun cls hcls => hall _ (mem_map_of_mem hcls)⟩

end StackBackend.Program
