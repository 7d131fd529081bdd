import StackBackend.Proofs.Closure.Confined

/-! Captures as a least solution. Closures and the contexts that functions need are defined
by rules, without rounds and without an order of functions, and the analysis finds exactly
what follows from the rules. -/

namespace StackBackend

open Checked List

namespace Program

mutual

/-- A nested function that needs an object at run time. -/
inductive IsClosure (p : Program) : FunctionId → Prop where
  | value {f g parent : FunctionId} (used : .value g ∈ p.bodyAtoms f)
    (hasBody : (p.bodyOf? g).isSome = true) (nested : p.enclosingFunction g = .ok (some parent)) :
    IsClosure p g
  | needy {g parent : FunctionId} {s : ScopeId} (nested : p.enclosingFunction g = .ok (some parent))
    (needs : NeedsContext p g s) : IsClosure p g

/-- A function that reaches into the context of a scope, itself or through one nested in it. -/
inductive NeedsContext (p : Program) : FunctionId → ScopeId → Prop where
  | variable {f owner : FunctionId} {d : DefnId} {s : ScopeId} (used : .variable d ∈ p.bodyAtoms f)
    (isVariable : p.IsVariable d) (home : p.HomeOf d s owner) (foreign : owner ≠ f) :
    NeedsContext p f s
  | closure {f g parent : FunctionId} {s : ScopeId}
    (used : .call g ∈ p.bodyAtoms f ∨ .value g ∈ p.bodyAtoms f) (isClosure : IsClosure p g)
    (nested : p.enclosingFunction g = .ok (some parent))
    (home : p.declaringScope g = .ok (some s)) (foreign : parent ≠ f) : NeedsContext p f s
  | inner {f g : FunctionId} {s : ScopeId} (nested : p.enclosingFunction g = .ok (some f))
    (needs : NeedsContext p g s) (outside : p.FromOutside f s) : NeedsContext p f s

end

variable {p : Program} {u : Usage} {closures : RefSet .functions}
  {needed : RefMap .functions (RefSet .scopes)} {f g : FunctionId} {s : ScopeId}

/-! ## All that is found follows from the rules -/

section

variable (hp : p.Consistent) (hu : p.UsageOf u)
include hp hu

/-- With closures that follow from the rules, so do needs. Nested functions come later in the
table, so the number of later functions goes down. -/
theorem NeededBy.sound (h : p.NeededBy u closures needed)
    (hclosures : ∀ g ∈ closures.toList, p.IsClosure g) (n : Nat) : ∀ {f : FunctionId},
      p.functions.size - f.index < n → Needs needed f s → p.NeedsContext f s := by
  induction n with
  | zero => intro f hn; exact absurd hn (Nat.not_lt_zero _)
  | succ n ih =>
    intro f hn hs
    obtain ⟨_, hparent⟩ := h.nested hp hu hs
    rcases (h.needs (hu.parents.mp hparent).1).mp hs with ⟨owner, hreach⟩ | ⟨g, hg, hs, houtside⟩
    · cases hreach with
      | «variable» hd hvar hhome hne => exact .variable hd hvar hhome hne
      | closure hg hclosure hparent hhome hne =>
        exact .closure hg (hclosures _ hclosure) (hu.parents.mp hparent).2 hhome hne
    · have hlt := hu.parent_lt hp hg
      have hsize := parent_lt_size hu hg
      exact .inner (hu.parents.mp hg).2 (ih (by omega) hs) houtside

theorem saturate_sound (rounds : Nat) : ∀ {start : RefSet .functions},
    (∀ g ∈ start.toList, p.IsClosure g) → p.saturate u rounds start = .ok (closures, needed) →
    p.neededContexts u closures = .ok needed ∧ ∀ g ∈ closures.toList, p.IsClosure g := by
  induction rounds with
  | zero =>
    intro start hstart h
    obtain ⟨_, hneeded, h⟩ := bind_eq_ok.mp h
    cases h
    exact ⟨hneeded, hstart⟩
  | succ rounds ih =>
    intro start hstart h
    obtain ⟨needed', hneeded, h⟩ := bind_eq_ok.mp h
    have hby := neededContexts_eq hp hu hneeded
    dsimp only at h
    by_cases hgrown : withNeedy u needed' start = start
    · rw [if_pos hgrown] at h
      cases h
      exact ⟨hneeded, hstart⟩
    · rw [if_neg hgrown] at h
      refine ih (fun g hg => ?_) h
      rcases (mem_withNeedy hby.sorted).mp hg with hg | ⟨⟨_, hparent⟩, s, hs⟩
      · exact hstart g hg
      · exact .needy (hu.parents.mp hparent).2 (hby.sound hp hu hstart _ (Nat.lt_succ_self _) hs)

omit hp hu in
theorem Saturated.settled (h : p.Saturated u closures needed) :
    withNeedy u needed closures = closures := by
  have hmem : ∀ {g}, g ∈ (withNeedy u needed closures).toList ↔ g ∈ closures.toList := by
    intro g
    rw [mem_withNeedy h.neededBy.sorted]
    exact or_iff_left_of_imp fun ⟨_, _, hs⟩ => h.closed hs
  refine Decidable.byContradiction fun hne => absurd (RefSet.length_lt (fun g => hmem.mpr) hne) ?_
  exact Nat.not_lt.mpr (List.subperm_of_subset (RefSet.nodup _) fun g => hmem.mp).length_le

theorem capturesOf_found {c : Captures} (h : p.capturesOf u = .ok c) :
    (∀ g ∈ c.closures.toList, p.IsClosure g) ∧ (∃ needed, p.neededContexts u c.closures = .ok needed ∧
      withNeedy u needed c.closures = c.closures) ∧
    ∀ {f ss}, c.needed.find? f = some ss → ∃ scopes, p.outermostFirst scopes = .ok ss := by
  unfold capturesOf at h
  rw [List.partition_eq_filter_filter] at h
  obtain ⟨_, _, h⟩ := bind_eq_ok.mp h
  obtain ⟨⟨closures, needed⟩, hsat, h⟩ := bind_eq_ok.mp h
  obtain ⟨_, _, h⟩ := bind_eq_ok.mp h
  obtain ⟨lists, hlists, h⟩ := bind_eq_ok.mp h
  cases h
  have hstart : ∀ g ∈ (RefSet.ofList (u.valueUses.filter u.parents.contains)).toList,
      p.IsClosure g := by
    intro g hg
    obtain ⟨_, hparent⟩ := nested_valueUses g hg
    rw [RefSet.mem_ofList, mem_filter, mem_valueUses hu] at hg
    obtain ⟨hbody, hnested⟩ := hu.parents.mp hparent
    exact .value hg.1.choose_spec hbody hnested
  obtain ⟨hneeded, hsound⟩ := saturate_sound hp hu _ hstart hsat
  obtain ⟨hsaturated, _⟩ := saturate_eq hp hu _ nested_valueUses (Nat.le_add_left _ _) hsat
  refine ⟨hsound, ⟨needed, hneeded, hsaturated.settled⟩, fun hss => ?_⟩
  obtain ⟨_, _, hx⟩ := (mem_mapM hlists).mp (RefMap.mem_of_find? hss)
  obtain ⟨_, hss, hx⟩ := bind_eq_ok.mp hx
  cases hx
  exact ⟨_, hss⟩

end

/-! ## All that follows from the rules is found -/

variable {c : Captures}

theorem CapturesOf.find_parent (h : p.CapturesOf u needed c) (hp : p.Consistent)
    (hs : Needs needed g s) {parent : FunctionId} (hparent : p.enclosingFunction g = .ok (some parent)) : u.parents.find? g = some parent := by
  obtain ⟨_, hfind⟩ := h.saturated.neededBy.nested hp h.usage hs
  cases hparent.symm.trans (h.usage.parents.mp hfind).2
  exact hfind

mutual

theorem CapturesOf.closure_found (h : p.CapturesOf u needed c) (hp : p.Consistent) :
    ∀ {g : FunctionId}, p.IsClosure g → g ∈ c.closures.toList
  | g, .value hg hbody hparent => by
    have hfound := h.values hg
    have hcontains : u.parents.contains g = true :=
      Option.isSome_iff_exists.mpr ⟨_, h.usage.parents.mpr ⟨hbody, hparent⟩⟩
    rwa [if_pos hcontains] at hfound
  | g, .needy _ hs => h.saturated.closed (h.need_found hp hs)

theorem CapturesOf.need_found (h : p.CapturesOf u needed c) (hp : p.Consistent) :
    ∀ {f : FunctionId} {s : ScopeId}, p.NeedsContext f s → Needs needed f s
  | f, s, .variable hd hvar hhome hne => by
    have hreach : p.Reaches u c.closures f s _ := .variable hd hvar hhome hne
    exact (h.saturated.neededBy.needs hreach.hasBody).mpr (.inl ⟨_, hreach⟩)
  | f, s, .closure hg hclosure hparent hhome hne => by
    have hfound := h.closure_found hp hclosure
    obtain ⟨_, hfind⟩ := h.saturated.nested _ hfound
    cases hparent.symm.trans (h.usage.parents.mp hfind).2
    have hreach : p.Reaches u c.closures f s _ := .closure hg hfound hfind hhome hne
    exact (h.saturated.neededBy.needs hreach.hasBody).mpr (.inl ⟨_, hreach⟩)
  | f, s, .inner hparent hs houtside => by
    have hfound := h.need_found hp hs
    have hfind := h.find_parent hp hfound hparent
    cases hbody : (p.bodyOf? f).isSome with
    | true => exact (h.saturated.neededBy.needs hbody).mpr (.inr ⟨_, hfind, hfound, houtside⟩)
    | false =>
      -- nothing around a function without a body is known to enclose what is nested in it
      obtain ⟨_, owner, hreach, howner⟩ := h.saturated.neededBy.source hfound
      have hnone : u.parents.find? f = none := Option.eq_none_iff_forall_ne_some.mpr fun k hk =>
        Bool.false_ne_true (hbody.symm.trans (h.usage.parents.mp hk).1)
      rw [ancestorsOf_eq hp h.usage, hfind] at howner
      dsimp only at howner
      rw [ancestorsOf_eq hp h.usage f, hnone] at howner
      cases mem_singleton.mp howner
      obtain ⟨o, ho, hne⟩ := houtside
      cases (hreach.scopeFunction h.usage).symm.trans ho
      exact absurd rfl hne

end

/-! ## The analysis -/

end Program

end StackBackend
