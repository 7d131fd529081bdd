import StackBackend.Proofs.Closure.Needs

/-! What the analysis of captures finds. The set of closures is closed under need: a nested
function that reaches into a context, itself or through one nested in it, is a closure. What
is captured is what bodies use of scopes of other functions. -/

namespace StackBackend

open Checked List

variable {items : CapturedItems} {uses : Uses} {s : ScopeId} {scopes : RefSet .scopes}

namespace Program

variable {p : Program} {u : Usage} {f g : FunctionId} {d : DefnId}

/-! ## Closures -/

section

variable {closures : RefSet .functions} {needed : RefMap .functions (RefSet .scopes)}

theorem mem_withNeedy (hsorted : needed.Sorted) : g ∈ (withNeedy u needed closures).toList ↔
    g ∈ closures.toList ∨ (∃ parent, u.parents.find? g = some parent) ∧ ∃ s, Needs needed g s := by
  unfold withNeedy
  rw [RefSet.mem_insertAll, mem_map]
  refine or_congr_right ?_
  simp only [mem_filter, Bool.and_eq_true, Bool.not_eq_true', RefMap.contains,
    Option.isSome_iff_exists]
  constructor
  · rintro ⟨⟨f, scopes⟩, ⟨hentry, hscopes, hparent⟩, rfl⟩
    obtain ⟨s, hs⟩ := exists_mem_of_ne_nil scopes.toList fun hnil => by
      rw [hnil] at hscopes
      cases hscopes
    exact ⟨hparent, s, scopes, RefMap.find?_of_mem hsorted.nodup_keys hentry, hs⟩
  · rintro ⟨hparent, s, scopes, hfind, hs⟩
    refine ⟨(g, scopes), ⟨RefMap.mem_of_find? hfind, ?_, hparent⟩, rfl⟩
    rw [List.isEmpty_eq_false_iff_exists_mem]
    exact ⟨s, hs⟩

/-- Closures are nested functions, and nested functions that need a context are closures. -/
structure Saturated (p : Program) (u : Usage) (closures : RefSet .functions)
    (needed : RefMap .functions (RefSet .scopes)) : Prop where
  nested : ∀ g ∈ closures.toList, ∃ parent, u.parents.find? g = some parent
  neededBy : p.NeededBy u closures needed
  closed : ∀ {g s}, Needs needed g s → g ∈ closures.toList

section

variable (hp : p.Consistent) (hu : p.UsageOf u)
include hp hu

theorem NeededBy.nested (h : p.NeededBy u closures needed) (hs : Needs needed g s) :
    ∃ parent, u.parents.find? g = some parent := by
  obtain ⟨_, owner, _, howner⟩ := h.source hs
  obtain ⟨parent, hparent, _⟩ := within_of_mem_ancestors hp hu howner
  exact ⟨parent, hparent⟩

/-- Each round but the last adds a nested function, so the rounds suffice. -/
theorem saturate_eq (rounds : Nat) : ∀ {start : RefSet .functions},
    (∀ g ∈ start.toList, ∃ parent, u.parents.find? g = some parent) →
    u.parents.entries.length ≤ start.toList.length + rounds →
    p.saturate u rounds start = .ok (closures, needed) →
    p.Saturated u closures needed ∧ ∀ g ∈ start.toList, g ∈ closures.toList := by
  induction rounds with
  | zero =>
    intro start hstart hlen h
    obtain ⟨needed', hneeded, h⟩ := bind_eq_ok.mp h
    cases h
    have hby := neededContexts_eq hp hu hneeded
    refine ⟨⟨hstart, hby, fun {g s} hs => ?_⟩, fun g hg => hg⟩
    -- every nested function is a closure by now
    have hsub : closures.toList ⊆ u.parents.keys := fun g hg => RefMap.mem_keys_iff.mpr (hstart g hg)
    have hperm := (List.subperm_of_subset closures.nodup hsub).perm_of_length_le (by
      rw [RefMap.keys, length_map]
      exact hlen)
    exact hperm.mem_iff.mpr (RefMap.mem_keys_iff.mpr (hby.nested hp hu hs))
  | succ rounds ih =>
    intro start hstart hlen h
    obtain ⟨needed', hneeded, h⟩ := bind_eq_ok.mp h
    have hby := neededContexts_eq hp hu hneeded
    dsimp only at h
    by_cases hgrown : withNeedy u needed' start = start
    · rw [if_pos hgrown] at h
      cases h
      refine ⟨⟨hstart, hby, fun {g s} hs => ?_⟩, fun g hg => hg⟩
      rw [← hgrown]
      exact (mem_withNeedy hby.sorted).mpr (.inr ⟨hby.nested hp hu hs, s, hs⟩)
    · rw [if_neg hgrown] at h
      have hsub : ∀ g ∈ start.toList, g ∈ (withNeedy u needed' start).toList := fun g hg =>
        (mem_withNeedy hby.sorted).mpr (.inl hg)
      have hmore := RefSet.length_lt hsub hgrown
      obtain ⟨hsat, hkept⟩ := ih (fun g hg =>
        ((mem_withNeedy hby.sorted).mp hg).elim (hstart g) And.left) (by omega) h
      exact ⟨hsat, fun g hg => hkept g (hsub g hg)⟩

omit hp in
theorem parent_lt_size {parent : FunctionId} (h : u.parents.find? g = some parent) :
    g.index < p.functions.size := by
  obtain ⟨body, hbody⟩ := Option.isSome_iff_exists.mp (hu.parents.mp h).1
  obtain ⟨decl, hdecl, _⟩ := bodyOf?_eq.mp hbody
  exact lt_of_get hdecl

theorem saturate_answers (hreach : ∀ {closures : RefSet .functions} {f s owner},
      (∀ g ∈ closures.toList, ∃ parent, u.parents.find? g = some parent) →
      p.Reaches u closures f s owner → owner ∈ u.ancestorsOf f) (rounds : Nat) :
    ∀ {start : RefSet .functions}, (∀ g ∈ start.toList, ∃ parent, u.parents.find? g = some parent) →
      (p.saturate u rounds start).Answers := by
  have hneeded : ∀ {start : RefSet .functions},
      (∀ g ∈ start.toList, ∃ parent, u.parents.find? g = some parent) →
      (p.neededContexts u start).Answers := fun {start} hstart =>
    neededContexts_answers hp hu
      (fun g hg => by
        obtain ⟨_, hparent⟩ := hstart g hg
        exact parent_lt_size hu hparent) fun h => hreach hstart h
  induction rounds with
  | zero =>
    intro start hstart
    obtain ⟨needed, hneeded⟩ := hneeded hstart
    exact answers_bind hneeded ⟨_, rfl⟩
  | succ rounds ih =>
    intro start hstart
    obtain ⟨needed, hneeded⟩ := hneeded hstart
    refine answers_bind hneeded ?_
    dsimp only
    by_cases hgrown : withNeedy u needed start = start
    · rw [if_pos hgrown]
      exact ⟨_, rfl⟩
    · rw [if_neg hgrown]
      refine ih fun g hg => ?_
      rcases (mem_withNeedy (neededContexts_eq hp hu hneeded).sorted).mp hg with hg | ⟨hparent, _⟩
      · exact hstart g hg
      · exact hparent

end

end

end Program

/-! ## What is captured -/

inductive CapturedItem where
  | variable (d : DefnId)
  | closure (f : FunctionId)

namespace CapturedScopes

variable {c c' c'' : CapturedScopes} {t : ScopeId} {i : CapturedItem}

def Holds (c : CapturedScopes) (s : ScopeId) : CapturedItem → Prop
  | .variable d => d ∈ (c.itemsOf s).defns.toList
  | .closure f => f ∈ (c.itemsOf s).closures.toList

/-- The second table holds what the first one does and some more. -/
structure Adds (c : CapturedScopes) (more : ScopeId → CapturedItem → Prop) (c' : CapturedScopes) :
    Prop where
  holds : ∀ {s i}, c'.Holds s i ↔ c.Holds s i ∨ more s i
  keys : ∀ {s}, s ∈ c'.keys ↔ s ∈ c.keys ∨ ∃ i, more s i
  sorted : c.Sorted → c'.Sorted

variable {more more' : ScopeId → CapturedItem → Prop}

theorem Adds.refl (c : CapturedScopes) : c.Adds (fun _ _ => False) c :=
  ⟨by simp, by simp, id⟩

theorem Adds.trans (h : c.Adds more c') (h' : c'.Adds more' c'') :
    c.Adds (fun s i => more s i ∨ more' s i) c'' where
  holds {s i} := by rw [h'.holds, h.holds, or_assoc]
  keys {s} := by rw [h'.keys, h.keys, exists_or, or_assoc]
  sorted hc := h'.sorted (h.sorted hc)

theorem Adds.congr (h : c.Adds more c') (heq : ∀ s i, more s i ↔ more' s i) : c.Adds more' c' where
  holds {s i} := by rw [h.holds, heq]
  keys {s} := by simp only [h.keys, heq]
  sorted := h.sorted

theorem itemsOf_insert :
    itemsOf (RefMap.insert c s items) t = if t = s then items else c.itemsOf t := by
  unfold itemsOf
  rw [RefMap.find?_insert]
  by_cases ht : t = s <;> simp [ht]

theorem mem_keys_insert : t ∈ RefMap.keys (RefMap.insert c s items) ↔ t ∈ c.keys ∨ t = s := by
  rw [RefMap.mem_keys_iff, RefMap.mem_keys_iff]
  simp only [RefMap.find?_insert]
  by_cases ht : t = s <;> simp [ht]

theorem adds_insert {new : CapturedItem} (h : ∀ i, (match i with
      | .variable d => d ∈ items.defns.toList
      | .closure f => f ∈ items.closures.toList) ↔ c.Holds s i ∨ i = new) :
    c.Adds (fun t i => t = s ∧ i = new) (RefMap.insert c s items) where
  holds {t i} := by
    have heq : Holds (RefMap.insert c s items) t i ↔ if t = s then (match i with
        | .variable d => d ∈ items.defns.toList
        | .closure f => f ∈ items.closures.toList) else c.Holds t i := by
      cases i <;> simp only [Holds, itemsOf_insert] <;> by_cases ht : t = s <;> simp [ht]
    rw [heq]
    by_cases ht : t = s
    · rw [if_pos ht, h, ht]
      simp
    · simp [ht]
  keys {t} := by
    rw [mem_keys_insert]
    simp
  sorted hc := hc.insert _ _

theorem adds_addVariable (d : DefnId) :
    c.Adds (fun t i => t = s ∧ i = .variable d) (c.addVariable s d) := by
  refine adds_insert fun i => ?_
  cases i with
  | «variable» d' =>
    dsimp only
    rw [RefSet.mem_insert, or_comm, CapturedItem.variable.injEq]
    rfl
  | closure f => simp [Holds]

theorem adds_addClosure (f : FunctionId) :
    c.Adds (fun t i => t = s ∧ i = .closure f) (c.addClosure s f) := by
  refine adds_insert fun i => ?_
  cases i with
  | «variable» d => simp [Holds]
  | closure f' =>
    dsimp only
    rw [RefSet.mem_insert, or_comm, CapturedItem.closure.injEq]
    rfl

end CapturedScopes

namespace Program

variable {p : Program} {u : Usage} {closures : RefSet .functions} {f g : FunctionId}
  {captured captured' : CapturedScopes}

inductive AddedBy (p : Program) (u : Usage) (closures : RefSet .functions) (f : FunctionId)
    (uses : Uses) (s : ScopeId) : CapturedItem → Prop where
  | variable {d : DefnId} {owner : FunctionId} (used : d ∈ uses.defns)
    (foreign : p.foreignHome? f d = .ok (some (s, owner))) : AddedBy p u closures f uses s (.variable d)
  | closure {g : FunctionId} {owner : FunctionId} (used : g ∈ uses.functions)
    (foreign : p.foreignClosure? u closures f g = .ok (some (s, owner))) :
    AddedBy p u closures f uses s (.closure g)

theorem adds_foldlM {α : Type} (foreign : α → Checked (Option (ScopeId × FunctionId)))
    {add : CapturedScopes → ScopeId → α → CapturedScopes} (item : α → CapturedItem)
    (hadd : ∀ {c s x}, CapturedScopes.Adds c (fun t i => t = s ∧ i = item x) (add c s x))
    (xs : List α) (h : xs.foldlM (fun captured x => do
      match ← foreign x with
      | some (home, _) => pure (add captured home x)
      | none => pure captured) captured = .ok captured') :
    captured.Adds (fun s i => ∃ x ∈ xs, i = item x ∧ ∃ owner, foreign x = .ok (some (s, owner)))
      captured' := by
  refine foldlM_keeps (I := fun done c => captured.Adds (fun s i => ∃ x ∈ done,
    i = item x ∧ ∃ owner, foreign x = .ok (some (s, owner))) c) xs [] h ?_ ?_
  · exact (CapturedScopes.Adds.refl captured).congr fun s i => by simp
  · intro pre x post c c' _ hpre hstep
    obtain ⟨use, huse, hstep⟩ := bind_eq_ok.mp hstep
    cases use with
    | none =>
      cases hstep
      refine hpre.congr fun s i => ?_
      simp [huse]
    | some use =>
      obtain ⟨home, owner⟩ := use
      cases hstep
      refine (hpre.trans hadd).congr fun s i => ?_
      simp only [mem_append, mem_singleton, or_and_right, exists_or, exists_eq_left]
      refine or_congr_right ?_
      rw [huse]
      constructor
      · rintro ⟨rfl, hi⟩
        exact ⟨hi, owner, rfl⟩
      · rintro ⟨hi, owner', heq⟩
        cases heq
        exact ⟨rfl, hi⟩

theorem capturedBy_eq (h : p.capturedBy u closures captured (f, uses) = .ok captured') :
    captured.Adds (p.AddedBy u closures f uses) captured' := by
  obtain ⟨middle, hvars, hclosures⟩ := bind_eq_ok.mp h
  have hv := adds_foldlM (p.foreignHome? f) .variable
    (fun {c s x} => CapturedScopes.adds_addVariable x) uses.defns hvars
  have hc := adds_foldlM (p.foreignClosure? u closures f) .closure
    (fun {c s x} => CapturedScopes.adds_addClosure x) uses.functions hclosures
  refine (hv.trans hc).congr fun s i => ?_
  constructor
  · rintro (⟨d, hd, rfl, owner, hforeign⟩ | ⟨g, hg, rfl, owner, hforeign⟩)
    · exact .variable hd hforeign
    · exact .closure hg hforeign
  · intro hadded
    cases hadded with
    | «variable» hd hforeign => exact .inl ⟨_, hd, rfl, _, hforeign⟩
    | closure hg hforeign => exact .inr ⟨_, hg, rfl, _, hforeign⟩

theorem capturedBy_answers (hp : p.Consistent)
    (hdefns : ∀ d ∈ uses.defns, d.index < p.definitions.size)
    (hclosures : ∀ g ∈ closures.toList, g.index < p.functions.size) :
    (p.capturedBy u closures captured (f, uses)).Answers := by
  have hvars : (uses.defns.foldlM (fun (captured : CapturedScopes) d => do
      match ← p.foreignHome? f d with
      | some (home, _) => pure (captured.addVariable home d)
      | none => pure captured) captured).Answers := by
    refine foldlM_answers (I := fun _ _ => True) _ [] trivial fun pre d post c hsplit _ => ?_
    have hd : d ∈ uses.defns := mem_iff_append.mpr ⟨pre, post, hsplit⟩
    obtain ⟨use, huse⟩ := foreignHome?_answers (f := f) hp (hdefns d hd)
    rw [huse]
    cases use <;> exact ⟨_, rfl, trivial⟩
  obtain ⟨middle, hmiddle⟩ := hvars
  refine answers_bind hmiddle ?_
  refine foldlM_answers (I := fun _ _ => True) _ [] trivial fun pre g post c _ _ => ?_
  obtain ⟨use, huse⟩ := foreignClosure?_answers (u := u) (f := f) hp (hclosures g)
  rw [huse]
  cases use <;> exact ⟨_, rfl, trivial⟩

/-- What the analysis finds captured. -/
inductive IsCaptured (p : Program) (u : Usage) (closures : RefSet .functions) (s : ScopeId) :
    CapturedItem → Prop where
  | variable {f owner : FunctionId} {d : DefnId} (used : .variable d ∈ p.bodyAtoms f)
    (isVariable : p.IsVariable d) (home : p.HomeOf d s owner) (foreign : owner ≠ f) :
    IsCaptured p u closures s (.variable d)
  | closure {f g owner : FunctionId} (used : .call g ∈ p.bodyAtoms f ∨ .value g ∈ p.bodyAtoms f)
    (isClosure : g ∈ closures.toList) (parent : u.parents.find? g = some owner)
    (home : p.declaringScope g = .ok (some s)) (foreign : owner ≠ f) :
    IsCaptured p u closures s (.closure g)

theorem isCaptured_iff_reaches : (∃ i, p.IsCaptured u closures s i) ↔
    ∃ f owner, p.Reaches u closures f s owner := by
  constructor
  · rintro ⟨_, hi⟩
    cases hi with
    | «variable» hd hvar hhome hne => exact ⟨_, _, .variable hd hvar hhome hne⟩
    | closure hg hclosure hparent hhome hne => exact ⟨_, _, .closure hg hclosure hparent hhome hne⟩
  · rintro ⟨_, _, hreach⟩
    cases hreach with
    | «variable» hd hvar hhome hne => exact ⟨_, .variable hd hvar hhome hne⟩
    | closure hg hclosure hparent hhome hne => exact ⟨_, .closure hg hclosure hparent hhome hne⟩

section

variable (hu : p.UsageOf u)
include hu

theorem mem_uses {us : Uses} : (f, us) ∈ u.uses.entries ↔
    ∃ body, p.bodyOf? f = some body ∧ p.usesOf body = .ok us := by
  rw [← hu.uses]
  exact ⟨fun h => RefMap.find?_of_mem hu.sortedUses.nodup_keys h, RefMap.mem_of_find?⟩

theorem isCaptured_iff {i : CapturedItem} : p.IsCaptured u closures s i ↔
    ∃ entry ∈ u.uses.entries, p.AddedBy u closures entry.1 entry.2 s i := by
  have hbody : ∀ {f a}, a ∈ p.bodyAtoms f → ∃ body us, p.bodyOf? f = some body ∧
      (f, us) ∈ u.uses.entries ∧ p.UsesOf body us ∧ a ∈ body.atoms := by
    intro f a ha
    obtain ⟨body, hbody, ha⟩ := mem_bodyAtoms.mp ha
    obtain ⟨us, hus⟩ := hu.answered hbody
    exact ⟨body, us, hbody, (mem_uses hu).mpr ⟨body, hbody, hus⟩, usesOf_eq hus, ha⟩
  constructor
  · intro hi
    cases hi with
    | @«variable» f owner d hd hvar hhome hne =>
      obtain ⟨body, us, _, hentry, hus, hd⟩ := hbody hd
      exact ⟨(f, us), hentry, .variable (hus.defns.mpr ⟨hd, hvar⟩) (foreignHome?_eq.mpr ⟨hhome, hne⟩)⟩
    | @closure f g owner hg hclosure hparent hhome hne =>
      have hforeign := foreignClosure?_eq.mpr ⟨hclosure, hparent, hhome, hne⟩
      rcases hg with hg | hg
      · obtain ⟨body, us, _, hentry, hus, hg⟩ := hbody hg
        exact ⟨(f, us), hentry, .closure (hus.functions.mpr (.inl hg)) hforeign⟩
      · obtain ⟨body, us, _, hentry, hus, hg⟩ := hbody hg
        exact ⟨(f, us), hentry, .closure (hus.functions.mpr (.inr hg)) hforeign⟩
  · rintro ⟨⟨f, us⟩, hentry, hadded⟩
    obtain ⟨body, hbody, hus⟩ := (mem_uses hu).mp hentry
    have hus := usesOf_eq hus
    have hatoms := bodyAtoms_eq hbody
    cases hadded with
    | «variable» hd hforeign =>
      obtain ⟨hd, hvar⟩ := hus.defns.mp hd
      obtain ⟨hhome, hne⟩ := foreignHome?_eq.mp hforeign
      exact .variable (hatoms ▸ hd) hvar hhome hne
    | closure hg hforeign =>
      obtain ⟨hclosure, hparent, hhome, hne⟩ := foreignClosure?_eq.mp hforeign
      exact .closure (hatoms ▸ hus.functions.mp hg) hclosure hparent hhome hne

omit hu in
theorem captured_adds (h : u.uses.entries.foldlM (p.capturedBy u closures) .empty = .ok captured) :
    CapturedScopes.Adds .empty (fun s i => ∃ entry ∈ u.uses.entries,
      p.AddedBy u closures entry.1 entry.2 s i) captured := by
  refine foldlM_keeps (I := fun done c => CapturedScopes.Adds .empty (fun s i =>
    ∃ entry ∈ done, p.AddedBy u closures entry.1 entry.2 s i) c) _ [] h ?_ ?_
  · exact (CapturedScopes.Adds.refl _).congr fun s i => by simp
  · intro pre entry post c c' _ hpre hstep
    refine (hpre.trans (capturedBy_eq hstep)).congr fun s i => ?_
    simp [or_and_right, exists_or]

theorem captured_eq (h : u.uses.entries.foldlM (p.capturedBy u closures) .empty = .ok captured) :
    (∀ s i, captured.Holds s i ↔ p.IsCaptured u closures s i) ∧
      (∀ s, s ∈ captured.keys ↔ ∃ i, p.IsCaptured u closures s i) ∧ captured.Sorted := by
  have hadds := captured_adds h
  refine ⟨fun s i => ?_, fun s => ?_, hadds.sorted RefMap.sorted_empty⟩
  · rw [hadds.holds, ← isCaptured_iff hu]
    cases i <;> simp [CapturedScopes.Holds, CapturedScopes.itemsOf, CapturedItems.empty]
  · rw [hadds.keys]
    simp only [← isCaptured_iff hu]
    simp [RefMap.keys, RefMap.empty]

end

/-! ## The analysis -/

theorem outermostFirst_perm {ss : List ScopeId}
    (h : p.outermostFirst scopes = .ok ss) : ss.Perm scopes.toList := by
  unfold outermostFirst at h
  split at h
  · rename_i heq
    cases h
    rw [heq]
  · rename_i heq
    cases h
    rw [heq]
  · obtain ⟨withDepth, hdepths, h⟩ := bind_eq_ok.mp h
    cases h
    rw [← mapM_fst hdepths]
    exact (List.mergeSort_perm withDepth _).map Prod.fst

theorem depthWithin_answers (hp : p.Consistent) (n : Nat) : ∀ {o : Option ScopeId},
    (∀ s ∈ o, s.index < p.scopes.size) → (p.depthWithin n o).Answers := by
  induction n with
  | zero => intro o _; exact ⟨0, rfl⟩
  | succ n ih =>
    intro o ho
    cases o with
    | none => exact ⟨0, rfl⟩
    | some s =>
      obtain ⟨scope, hscope⟩ := exists_of_lt (ho s rfl)
      obtain ⟨depth, hdepth⟩ := ih (o := scope.parent) fun t ht => by
        have hlt := (hp.scope hscope).parent ht
        have hs := ho s rfl
        omega
      exact answers_bind (scopeAt_eq hscope) (answers_bind hdepth ⟨_, rfl⟩)

theorem outermostFirst_answers (hp : p.Consistent)
    (hscopes : ∀ s ∈ scopes.toList, s.index < p.scopes.size) :
    (p.outermostFirst scopes).Answers := by
  unfold outermostFirst
  split
  · exact ⟨_, rfl⟩
  · exact ⟨_, rfl⟩
  · obtain ⟨withDepth, hdepths⟩ := mapM_answers.mpr fun s (hs : s ∈ scopes.toList) =>
        show (do pure (s, ← p.scopeDepth s) : Checked (ScopeId × Nat)).Answers by
      obtain ⟨scope, hscope⟩ := exists_of_lt (hscopes s hs)
      obtain ⟨depth, hdepth⟩ := depthWithin_answers hp (p.scopes.size + 1) (o := scope.parent)
        fun t ht => by
          have hlt := (hp.scope hscope).parent ht
          have hs := hscopes s hs
          omega
      have hscopeDepth : p.scopeDepth s = .ok depth :=
        bind_eq_ok.mpr ⟨scope, scopeAt_eq hscope, hdepth⟩
      exact answers_bind hscopeDepth ⟨_, rfl⟩
    exact answers_bind hdepths ⟨_, rfl⟩

theorem mem_valueUses (hu : p.UsageOf u) : g ∈ u.valueUses ↔ ∃ f, .value g ∈ p.bodyAtoms f := by
  unfold Usage.valueUses
  rw [mem_flatMap]
  constructor
  · rintro ⟨⟨f, us⟩, hentry, hg⟩
    obtain ⟨body, hbody, hus⟩ := (mem_uses hu).mp hentry
    exact ⟨f, mem_bodyAtoms.mpr ⟨body, hbody, (usesOf_eq hus).values.mp hg⟩⟩
  · rintro ⟨f, hg⟩
    obtain ⟨body, hbody, hg⟩ := mem_bodyAtoms.mp hg
    obtain ⟨us, hus⟩ := hu.answered hbody
    exact ⟨(f, us), (mem_uses hu).mpr ⟨body, hbody, hus⟩, (usesOf_eq hus).values.mpr hg⟩

theorem nested_valueUses : ∀ g ∈ (RefSet.ofList (u.valueUses.filter u.parents.contains)).toList,
      ∃ parent, u.parents.find? g = some parent := by
  intro g hg
  rw [RefSet.mem_ofList, mem_filter] at hg
  exact Option.isSome_iff_exists.mp hg.2

def IsTopLevel (p : Program) (u : Usage) (g : FunctionId) : Prop :=
  u.parents.find? g = none ∧ ∃ decl, p.functions[g.index]? = some decl ∧ decl.kind = .global

structure CapturesOf (p : Program) (u : Usage) (needed : RefMap .functions (RefSet .scopes))
    (c : Captures) : Prop where
  usage : p.UsageOf u
  saturated : p.Saturated u c.closures needed
  /-- A nested function that is used as a value is a closure. -/
  values : ∀ {f g}, .value g ∈ p.bodyAtoms f →
    if u.parents.contains g then g ∈ c.closures.toList else g ∈ c.values.toList ↔ p.IsTopLevel u g
  topLevel : ∀ g ∈ c.values.toList, p.IsTopLevel u g
  used : ∀ g ∈ c.values.toList, ∃ f, .value g ∈ p.bodyAtoms f
  holds : ∀ s i, c.captured.Holds s i ↔ p.IsCaptured u c.closures s i
  keys : ∀ s, s ∈ c.captured.keys ↔ ∃ i, p.IsCaptured u c.closures s i
  sorted : c.captured.Sorted
  contexts : ∀ {f ss}, c.needed.find? f = some ss →
    f ∈ c.closures.toList ∧ ss.Nodup ∧ ∀ s, s ∈ ss ↔ Needs needed f s
  known : ∀ f ∈ c.closures.toList, ∃ ss, c.needed.find? f = some ss
  caught : c.caught = u.caught
  parents : c.parents = u.parents

theorem isTopLevel_eq : p.isTopLevel g = .ok true ↔
    ∃ decl, p.functions[g.index]? = some decl ∧ decl.kind = .global := by
  unfold isTopLevel
  rw [bind_eq_ok]
  constructor
  · rintro ⟨decl, hdecl, h⟩
    exact ⟨decl, entryAt_eq_ok.mp hdecl, of_decide_eq_true (Except.ok.inj h)⟩
  · rintro ⟨decl, hdecl, hkind⟩
    exact ⟨decl, functionAt_eq hdecl, congrArg Except.ok (decide_eq_true hkind)⟩

section

variable (hp : p.Consistent) (hu : p.UsageOf u)
include hp hu

theorem capturesOf_eq {c : Captures} (h : p.capturesOf u = .ok c) :
    ∃ needed, p.CapturesOf u needed c := by
  unfold capturesOf at h
  rw [List.partition_eq_filter_filter] at h
  obtain ⟨values, hvalues, h⟩ := bind_eq_ok.mp h
  obtain ⟨⟨closures, needed⟩, hsat, h⟩ := bind_eq_ok.mp h
  obtain ⟨captured, hcaptured, h⟩ := bind_eq_ok.mp h
  obtain ⟨lists, hlists, h⟩ := bind_eq_ok.mp h
  cases h
  obtain ⟨hsaturated, hstart⟩ := saturate_eq hp hu _ nested_valueUses (Nat.le_add_left _ _) hsat
  obtain ⟨hholds, hkeys, hsorted⟩ := captured_eq hu hcaptured
  have hvalue : ∀ {g}, g ∈ (RefSet.ofList values).toList ↔
      (∃ f, .value g ∈ p.bodyAtoms f) ∧ p.IsTopLevel u g := by
    intro g
    rw [RefSet.mem_ofList, mem_filterM hvalues, isTopLevel_eq, mem_filter,
      mem_valueUses hu, and_assoc]
    refine and_congr_right fun _ => and_congr_left fun _ => ?_
    simp [RefMap.contains]
  have hlist : ∀ {f ss}, (f, ss) ∈ lists ↔ f ∈ closures.toList ∧
      p.outermostFirst ((needed.find? f).getD .empty) = .ok ss := by
    intro f ss
    rw [mem_mapM hlists]
    constructor
    · rintro ⟨g, hg, heq⟩
      obtain ⟨ss', hss, heq⟩ := bind_eq_ok.mp heq
      cases heq
      exact ⟨hg, hss⟩
    · rintro ⟨hf, hss⟩
      exact ⟨f, hf, bind_eq_ok.mpr ⟨ss, hss, rfl⟩⟩
  have hsortedLists : RefMap.Sorted (⟨lists⟩ : RefMap .functions (List ScopeId)) := by
    have hpair := closures.sorted
    rw [← mapM_fst hlists, pairwise_map] at hpair
    exact hpair
  refine ⟨needed, ⟨hu, hsaturated, ?_, fun g hg => (hvalue.mp hg).2, fun g hg => (hvalue.mp hg).1,
    hholds, hkeys, hsorted, ?_, ?_, rfl, rfl⟩⟩
  · intro f g hg
    by_cases hparent : u.parents.contains g = true
    · rw [if_pos hparent]
      refine hstart g ?_
      rw [RefSet.mem_ofList, mem_filter, mem_valueUses hu]
      exact ⟨⟨f, hg⟩, hparent⟩
    · rw [if_neg hparent, hvalue]
      exact and_iff_right ⟨f, hg⟩
  · intro f ss hss
    obtain ⟨hf, hss⟩ := hlist.mp (RefMap.mem_of_find? hss)
    have hperm := outermostFirst_perm hss
    refine ⟨hf, hperm.nodup_iff.mpr (RefSet.nodup _), fun s => ?_⟩
    rw [hperm.mem_iff]
    unfold Needs
    cases needed.find? f <;> simp
  · intro f hf
    obtain ⟨⟨f', ss⟩, hx⟩ := mapM_answers.mp ⟨lists, hlists⟩ f hf
    obtain ⟨ss', hss, hx⟩ := bind_eq_ok.mp hx
    exact ⟨ss', RefMap.find?_of_mem hsortedLists.nodup_keys (hlist.mpr ⟨hf, hss⟩)⟩

theorem capturesOf_of_saturate {closures : RefSet .functions}
    {needed : RefMap .functions (RefSet .scopes)}
    (hvalues : ∀ {f g}, .value g ∈ p.bodyAtoms f → g.index < p.functions.size)
    (hsat : p.saturate u u.parents.entries.length
      (.ofList (u.valueUses.filter u.parents.contains)) = .ok (closures, needed)) :
    ∃ c, p.capturesOf u = .ok c ∧ c.closures = closures := by
  unfold capturesOf
  rw [List.partition_eq_filter_filter]
  obtain ⟨values, hfilter⟩ := filterM_answers.mpr fun g
      (hg : g ∈ u.valueUses.filter (not ∘ u.parents.contains)) =>
      show (p.isTopLevel g).Answers by
    obtain ⟨f, hg⟩ := (mem_valueUses hu).mp (mem_filter.mp hg).1
    obtain ⟨decl, hdecl⟩ := exists_of_lt (hvalues hg)
    exact answers_bind (functionAt_eq hdecl) ⟨_, rfl⟩
  obtain ⟨hsaturated, _⟩ := saturate_eq hp hu _ nested_valueUses (Nat.le_add_left _ _) hsat
  have hclosures : ∀ g ∈ closures.toList, g.index < p.functions.size := fun g hg => by
    obtain ⟨_, hparent⟩ := hsaturated.nested g hg
    exact parent_lt_size hu hparent
  have hcapture : (u.uses.entries.foldlM (p.capturedBy u closures) .empty).Answers := by
    refine foldlM_answers (I := fun _ _ => True) _ [] trivial
      fun pre ⟨f, us⟩ post c hsplit _ => ?_
    have hentry : (f, us) ∈ u.uses.entries := mem_iff_append.mpr ⟨pre, post, hsplit⟩
    obtain ⟨body, _, hus⟩ := (mem_uses hu).mp hentry
    have hdefns : ∀ d ∈ us.defns, d.index < p.definitions.size := by
      intro d hd
      obtain ⟨_, defn, hdefn, _⟩ := (usesOf_eq hus).defns.mp hd
      exact lt_of_get hdefn
    obtain ⟨c', hc'⟩ := capturedBy_answers (u := u) (f := f) hp hdefns hclosures
    exact ⟨c', hc', trivial⟩
  obtain ⟨captured, hcaptured⟩ := hcapture
  obtain ⟨lists, hlists⟩ := mapM_answers.mpr fun f (_ : f ∈ closures.toList) =>
      show (do pure (f, ← p.outermostFirst ((needed.find? f).getD .empty)) :
        Checked (FunctionId × List ScopeId)).Answers by
    have hscopes : ∀ s ∈ ((needed.find? f).getD .empty).toList, s.index < p.scopes.size := by
      intro s hs
      have hneeds : Needs needed f s := by
        unfold Needs
        cases hfind : needed.find? f with
        | none => rw [hfind] at hs; exact absurd hs RefSet.mem_empty
        | some scopes => rw [hfind] at hs; exact ⟨scopes, rfl, hs⟩
      obtain ⟨_, _, hreaches, _⟩ := hsaturated.neededBy.source hneeds
      exact scope_lt_of_scopeFunction (hreaches.scopeFunction hu)
    obtain ⟨ss, hss⟩ := outermostFirst_answers hp hscopes
    exact answers_bind hss ⟨_, rfl⟩
  exact ⟨_, bind_eq_ok.mpr ⟨values, hfilter, bind_eq_ok.mpr ⟨_, hsat,
    bind_eq_ok.mpr ⟨captured, hcaptured, bind_eq_ok.mpr ⟨lists, hlists, rfl⟩⟩⟩⟩, rfl⟩

theorem capturesOf_answers (hvalues : ∀ {f g}, .value g ∈ p.bodyAtoms f → g.index < p.functions.size)
    (hreach : ∀ {closures : RefSet .functions} {f s owner},
      (∀ g ∈ closures.toList, ∃ parent, u.parents.find? g = some parent) →
      p.Reaches u closures f s owner → owner ∈ u.ancestorsOf f) : (p.capturesOf u).Answers := by
  obtain ⟨_, hsat⟩ := saturate_answers hp hu hreach u.parents.entries.length nested_valueUses
  obtain ⟨c, hc, _⟩ := capturesOf_of_saturate hp hu hvalues hsat
  exact ⟨c, hc⟩

end

end Program

end StackBackend
