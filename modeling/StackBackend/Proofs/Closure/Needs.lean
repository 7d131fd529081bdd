import StackBackend.Proofs.Closure.Usage

/-! The contexts that functions need. A function needs what it reaches into itself, and what
the functions nested in it need from outside of it. The functions with bodies are gone
through innermost first, so what nested functions need is known by then. -/

namespace StackBackend

open Checked
open List (mem_append not_mem_nil mem_singleton mem_cons mem_cons_self)

variable {d : DefnId} {s : ScopeId} {owner : FunctionId} {closures : RefSet .functions}
  {name : Checked String} {use : Option (ScopeId × FunctionId)} {ss : List ScopeId}
  {needed : RefMap .functions (RefSet .scopes)} {pre post done : List FunctionId}

/-! ## Enclosing functions -/

section

variable {parents : RefMap .functions FunctionId} {f g : FunctionId}

theorem ancestors_succ (n : Nat) (f : FunctionId) :
    ancestors parents (n + 1) f = match parents.find? f with
      | some parent => parent :: ancestors parents n parent
      | none => [] := rfl

theorem ancestors_stable (n : Nat) : ∀ {f : FunctionId}, (ancestors parents n f).length < n →
    ancestors parents (n + 1) f = ancestors parents n f := by
  induction n with
  | zero => intro f h; exact absurd h (Nat.not_lt_zero _)
  | succ n ih =>
    intro f h
    rw [ancestors_succ] at h ⊢
    rw [ancestors_succ]
    cases hf : parents.find? f with
    | none => rfl
    | some parent =>
      rw [hf] at h
      have hlt : (ancestors parents n parent).length < n := Nat.lt_of_succ_lt_succ h
      exact congrArg (parent :: ·) (ih hlt)

theorem length_ancestors (hdown : ∀ {f g}, parents.find? f = some g → g.index < f.index) (n : Nat) :
    ∀ f : FunctionId, ∃ ks : List FunctionId, ks.Nodup ∧ ks.length = (ancestors parents n f).length ∧
      ∀ k ∈ ks, k ∈ parents.keys ∧ k.index ≤ f.index := by
  induction n with
  | zero => intro f; exact ⟨[], List.nodup_nil, rfl, List.forall_mem_nil _⟩
  | succ n ih =>
    intro f
    rw [ancestors_succ]
    cases hf : parents.find? f with
    | none => exact ⟨[], List.nodup_nil, rfl, List.forall_mem_nil _⟩
    | some parent =>
      have hlt := hdown hf
      obtain ⟨ks, hnodup, hlen, hks⟩ := ih parent
      refine ⟨f :: ks, List.nodup_cons.mpr ⟨fun hmem => ?_, hnodup⟩, congrArg Nat.succ hlen, ?_⟩
      · have hle := (hks f hmem).2
        omega
      · refine List.forall_mem_cons.mpr ⟨⟨RefMap.mem_keys_iff.mpr ⟨parent, hf⟩, Nat.le_refl _⟩, ?_⟩
        intro k hk
        have hle := (hks k hk).2
        exact ⟨(hks k hk).1, by omega⟩

end

namespace Program

variable {p : Program} {u : Usage} {f g : FunctionId}

section

variable (hp : p.Consistent) (hu : p.UsageOf u)
include hp hu

theorem UsageOf.parent_lt (h : u.parents.find? f = some g) : g.index < f.index := by
  obtain ⟨hbody, henclosing⟩ := hu.parents.mp h
  obtain ⟨body, hbody⟩ := Option.isSome_iff_exists.mp hbody
  obtain ⟨decl, hdecl, _⟩ := bodyOf?_eq.mp hbody
  exact enclosing_lt hp (lt_of_get hdecl) henclosing

theorem ancestorsOf_eq (f : FunctionId) : u.ancestorsOf f = match u.parents.find? f with
    | some parent => parent :: u.ancestorsOf parent
    | none => [] := by
  have hbound : ∀ (n : Nat) (f : FunctionId),
      (ancestors u.parents n f).length ≤ u.parents.entries.length := by
    intro n f
    obtain ⟨ks, hnodup, hlen, hks⟩ := length_ancestors (fun h => hu.parent_lt hp h) n f
    rw [← hlen]
    have hsub : ks ⊆ u.parents.keys := fun k hk => (hks k hk).1
    have hle := (List.subperm_of_subset hnodup hsub).length_le
    rwa [RefMap.keys, List.length_map] at hle
  have hf := hbound (u.parents.entries.length + 1) f
  unfold Usage.ancestorsOf
  rw [ancestors_succ] at hf ⊢
  cases hparent : u.parents.find? f with
  | none => rfl
  | some parent =>
    rw [hparent] at hf
    exact congrArg (parent :: ·) (ancestors_stable _ hf).symm

theorem depthOf_parent (h : u.parents.find? f = some g) : u.depthOf f = u.depthOf g + 1 := by
  unfold Usage.depthOf
  rw [ancestorsOf_eq hp hu f, h]
  rfl

theorem within_of_mem_ancestors : ∀ {f : FunctionId}, g ∈ u.ancestorsOf f →
    ∃ parent, u.parents.find? f = some parent ∧ p.Within parent g := by
  suffices h : ∀ (n : Nat) {f : FunctionId}, f.index < n → g ∈ u.ancestorsOf f →
      ∃ parent, u.parents.find? f = some parent ∧ p.Within parent g from
    fun {f} hg => h (f.index + 1) (Nat.lt_succ_self _) hg
  intro n
  induction n with
  | zero => intro f hf; exact absurd hf (Nat.not_lt_zero _)
  | succ n ih =>
    intro f hf hg
    rw [ancestorsOf_eq hp hu f] at hg
    cases hparent : u.parents.find? f with
    | none => rw [hparent] at hg; exact absurd hg not_mem_nil
    | some parent =>
      rw [hparent] at hg
      refine ⟨parent, rfl, ?_⟩
      rcases mem_cons.mp hg with rfl | hg
      · exact .here g
      · have hlt := hu.parent_lt hp hparent
        obtain ⟨outer, houter, hwithin⟩ := ih (by omega) hg
        exact .around (hu.parents.mp houter).2 hwithin

/-- Every function that encloses a function properly is listed, if the functions on the way
have bodies. -/
theorem mem_ancestors_of_within (hbodies : ∀ {f g}, (p.bodyOf? f).isSome = true →
      p.enclosingFunction f = .ok (some g) → (p.bodyOf? g).isSome = true)
    (h : p.Within f g) (hf : (p.bodyOf? f).isSome = true) (hne : f ≠ g) :
    g ∈ u.ancestorsOf f := by
  induction h with
  | here => exact absurd rfl hne
  | @around f parent g hparent hrest ih =>
    rw [ancestorsOf_eq hp hu f, hu.parents.mpr ⟨hf, hparent⟩]
    by_cases heq : parent = g
    · rw [heq]
      exact mem_cons_self
    · exact .tail _ (ih (hbodies hf hparent) heq)

end

/-! ## What a body reaches into -/

def HomeOf (p : Program) (d : DefnId) (s : ScopeId) (owner : FunctionId) : Prop :=
  ∃ defn, p.definitions[d.index]? = some defn ∧ defn.scope = s ∧
    p.scopeFunction s = .ok (some owner)

theorem foreignHome?_eq :
    p.foreignHome? f d = .ok (some (s, owner)) ↔ p.HomeOf d s owner ∧ owner ≠ f := by
  unfold foreignHome?
  rw [bind_eq_ok]
  constructor
  · rintro ⟨defn, hdefn, h⟩
    obtain ⟨o, ho, h⟩ := bind_eq_ok.mp h
    cases o with
    | none => cases h
    | some owner' =>
      by_cases heq : owner' = f
      · simp [heq, pure, Except.pure] at h
      · simp only [heq, if_false] at h
        cases h
        exact ⟨⟨defn, entryAt_eq_ok.mp hdefn, rfl, ho⟩, heq⟩
  · rintro ⟨⟨defn, hdefn, rfl, ho⟩, hne⟩
    refine ⟨defn, defnAt_eq hdefn, bind_eq_ok.mpr ⟨some owner, ho, ?_⟩⟩
    simp only [hne, if_false]
    rfl

theorem foreignHome?_answers (hp : p.Consistent)
    (hd : d.index < p.definitions.size) : (p.foreignHome? f d).Answers := by
  obtain ⟨defn, hdefn⟩ := exists_of_lt hd
  obtain ⟨o, ho, _⟩ := scopeFunction_ok hp (hp.defn hdefn).scope
  refine answers_bind (defnAt_eq hdefn) (answers_bind ho ?_)
  cases o <;> exact ⟨_, rfl⟩

theorem foreignClosure?_eq : p.foreignClosure? u closures f g = .ok (some (s, owner)) ↔
      g ∈ closures.toList ∧ u.parents.find? g = some owner ∧ p.declaringScope g = .ok (some s) ∧
        owner ≠ f := by
  unfold foreignClosure?
  by_cases hg : closures.contains g = true
  · rw [if_pos hg, bind_eq_ok]
    rw [RefSet.contains_iff] at hg
    constructor
    · rintro ⟨home, hhome, h⟩
      cases hparent : u.parents.find? g with
      | none => rw [hparent] at h; cases h
      | some parent =>
        rw [hparent] at h
        cases home with
        | none => cases h
        | some home =>
          by_cases heq : parent = f
          · simp [heq, pure, Except.pure] at h
          · simp only [heq, if_false] at h
            cases h
            exact ⟨hg, rfl, hhome, heq⟩
    · rintro ⟨_, hparent, hhome, hne⟩
      refine ⟨some s, hhome, ?_⟩
      rw [hparent]
      simp only [hne, if_false]
      rfl
  · rw [if_neg hg]
    rw [RefSet.contains_iff] at hg
    constructor
    · intro h
      cases h
    · rintro ⟨h, _⟩
      exact absurd h hg

theorem foreignClosure?_answers (hp : p.Consistent)
    (hg : g ∈ closures.toList → g.index < p.functions.size) :
    (p.foreignClosure? u closures f g).Answers := by
  unfold foreignClosure?
  by_cases hmem : closures.contains g = true
  · rw [if_pos hmem]
    obtain ⟨home, o, hhome, _⟩ := enclosingFunction_ok hp (hg (RefSet.contains_iff.mp hmem))
    refine answers_bind hhome ?_
    cases u.parents.find? g <;> exact ⟨_, rfl⟩
  · rw [if_neg hmem]
    exact ⟨none, rfl⟩

/-- The body of a function reaches into a scope of another one: it uses a variable from
there, or a closure that is declared there. -/
inductive Reaches (p : Program) (u : Usage) (closures : RefSet .functions) (f : FunctionId) :
    ScopeId → FunctionId → Prop where
  | variable {d : DefnId} {s : ScopeId} {owner : FunctionId} (used : .variable d ∈ p.bodyAtoms f)
    (isVariable : p.IsVariable d) (home : p.HomeOf d s owner) (foreign : owner ≠ f) :
    Reaches p u closures f s owner
  | closure {g : FunctionId} {s : ScopeId} {owner : FunctionId}
    (used : .call g ∈ p.bodyAtoms f ∨ .value g ∈ p.bodyAtoms f) (isClosure : g ∈ closures.toList)
    (parent : u.parents.find? g = some owner) (home : p.declaringScope g = .ok (some s))
    (foreign : owner ≠ f) : Reaches p u closures f s owner

theorem requireEnclosing_eq {o : Option ScopeId} (h : p.requireEnclosing u f name use = .ok o) :
    o = use.map Prod.fst ∧ ∀ s owner, use = some (s, owner) → owner ∈ u.ancestorsOf f := by
  cases use with
  | none =>
    cases h
    exact ⟨rfl, nofun⟩
  | some use =>
    obtain ⟨s, owner⟩ := use
    simp only [requireEnclosing] at h
    by_cases hmem : owner ∈ u.ancestorsOf f
    · rw [if_pos hmem] at h
      cases h
      refine ⟨rfl, fun s' owner' heq => ?_⟩
      cases heq
      exact hmem
    · rw [if_neg hmem] at h
      obtain ⟨_, _, h⟩ := bind_eq_ok.mp h
      obtain ⟨_, _, h⟩ := bind_eq_ok.mp h
      cases h

theorem requireEnclosing_answers (h : ∀ s owner, use = some (s, owner) → owner ∈ u.ancestorsOf f) :
    (p.requireEnclosing u f name use).Answers := by
  cases use with
  | none => exact ⟨none, rfl⟩
  | some use =>
    obtain ⟨s, owner⟩ := use
    simp only [requireEnclosing]
    rw [if_pos (h s owner rfl)]
    exact ⟨some s, rfl⟩

/-- A question about a scope of another function, and whether that one encloses `f`. -/
theorem requireEnclosing_bind {α : Type} {xs : List α}
    {foreign : α → Checked (Option (ScopeId × FunctionId))} {name : α → Checked String}
    (h : (xs.filterMapM fun x => do p.requireEnclosing u f (name x) (← foreign x)) = .ok ss) :
    (∀ s, s ∈ ss ↔ ∃ x ∈ xs, ∃ owner, foreign x = .ok (some (s, owner))) ∧
      ∀ x ∈ xs, ∀ s owner, foreign x = .ok (some (s, owner)) → owner ∈ u.ancestorsOf f := by
  have hstep : ∀ {x o}, (do p.requireEnclosing u f (name x) (← foreign x)) = .ok o →
      ∃ use, foreign x = .ok use ∧ o = use.map Prod.fst ∧
        ∀ s owner, use = some (s, owner) → owner ∈ u.ancestorsOf f := by
    intro x o hx
    obtain ⟨use, huse, hx⟩ := bind_eq_ok.mp hx
    exact ⟨use, huse, requireEnclosing_eq hx⟩
  have hall := filterMapM_answers.mp ⟨ss, h⟩
  have hmem : ∀ x ∈ xs, ∀ s owner, foreign x = .ok (some (s, owner)) →
      owner ∈ u.ancestorsOf f := by
    intro x hx s owner hforeign
    obtain ⟨o, ho⟩ := hall x hx
    obtain ⟨use, huse, _, howner⟩ := hstep ho
    cases huse.symm.trans hforeign
    exact howner s owner rfl
  refine ⟨fun s => ?_, hmem⟩
  rw [mem_filterMapM h]
  constructor
  · rintro ⟨x, hx, ho⟩
    obtain ⟨use, huse, ho, _⟩ := hstep ho
    cases use with
    | none => cases ho
    | some use =>
      cases ho
      exact ⟨x, hx, use.2, huse⟩
  · rintro ⟨x, hx, owner, hforeign⟩
    obtain ⟨o, ho⟩ := hall x hx
    obtain ⟨use, huse, heq, _⟩ := hstep ho
    cases huse.symm.trans hforeign
    rw [heq] at ho
    exact ⟨x, hx, ho⟩

section

variable {body : Expr} {us : Uses}

theorem UsesOf.functions (h : p.UsesOf body us) : g ∈ us.functions ↔
    .call g ∈ body.atoms ∨ .value g ∈ body.atoms := by
  rw [Uses.functions, mem_append, h.calls, h.values]

theorem bodyAtoms_eq (hbody : p.bodyOf? f = some body) : p.bodyAtoms f = body.atoms := by
  unfold bodyAtoms
  rw [hbody]
  rfl

theorem directNeeds_eq (hbody : p.bodyOf? f = some body) (hus : p.UsesOf body us)
    (h : p.directNeeds u closures f us = .ok ss) :
    (∀ s, s ∈ ss ↔ ∃ owner, p.Reaches u closures f s owner) ∧
      ∀ s owner, p.Reaches u closures f s owner → owner ∈ u.ancestorsOf f := by
  obtain ⟨forVariables, hvars, h⟩ := bind_eq_ok.mp h
  obtain ⟨forClosures, hclosures, h⟩ := bind_eq_ok.mp h
  cases h
  obtain ⟨hvars, hvarsOwn⟩ := requireEnclosing_bind hvars
  obtain ⟨hclosures, hclosuresOwn⟩ := requireEnclosing_bind hclosures
  have hatoms := bodyAtoms_eq hbody
  constructor
  · intro s
    rw [mem_append, hvars, hclosures]
    constructor
    · rintro (⟨d, hd, owner, hhome⟩ | ⟨g, hg, owner, hhome⟩)
      · obtain ⟨hd, hvar⟩ := hus.defns.mp hd
        obtain ⟨hhome, hne⟩ := foreignHome?_eq.mp hhome
        exact ⟨owner, .variable (hatoms ▸ hd) hvar hhome hne⟩
      · obtain ⟨hclosure, hparent, hhome, hne⟩ := foreignClosure?_eq.mp hhome
        exact ⟨owner, .closure (hatoms ▸ hus.functions.mp hg) hclosure hparent hhome hne⟩
    · rintro ⟨owner, hreach⟩
      cases hreach with
      | «variable» hd hvar hhome hne =>
        rw [hatoms] at hd
        exact .inl ⟨_, hus.defns.mpr ⟨hd, hvar⟩, owner, foreignHome?_eq.mpr ⟨hhome, hne⟩⟩
      | closure hg hclosure hparent hhome hne =>
        rw [hatoms] at hg
        exact .inr ⟨_, hus.functions.mpr hg, owner,
          foreignClosure?_eq.mpr ⟨hclosure, hparent, hhome, hne⟩⟩
  · intro s owner hreach
    cases hreach with
    | «variable» hd hvar hhome hne =>
      rw [hatoms] at hd
      exact hvarsOwn _ (hus.defns.mpr ⟨hd, hvar⟩) s owner (foreignHome?_eq.mpr ⟨hhome, hne⟩)
    | closure hg hclosure hparent hhome hne =>
      rw [hatoms] at hg
      exact hclosuresOwn _ (hus.functions.mpr hg) s owner
        (foreignClosure?_eq.mpr ⟨hclosure, hparent, hhome, hne⟩)

theorem directNeeds_answers (hp : p.Consistent) (hbody : p.bodyOf? f = some body)
    (hus : p.UsesOf body us)
    (hclosures : ∀ g ∈ closures.toList, g.index < p.functions.size)
    (hreach : ∀ s owner, p.Reaches u closures f s owner → owner ∈ u.ancestorsOf f) :
    (p.directNeeds u closures f us).Answers := by
  have hatoms := bodyAtoms_eq hbody
  obtain ⟨forVariables, hvars⟩ := filterMapM_answers.mpr fun d
      (hd : d ∈ us.defns) => show (do
        p.requireEnclosing u f (do pure (← p.defnAt d).name) (← p.foreignHome? f d)).Answers by
    obtain ⟨hd, defn, hdefn, hkind⟩ := hus.defns.mp hd
    obtain ⟨use, huse⟩ := foreignHome?_answers (f := f) hp (lt_of_get hdefn)
    refine answers_bind huse (requireEnclosing_answers fun s owner heq => ?_)
    cases heq
    obtain ⟨hhome, hne⟩ := foreignHome?_eq.mp huse
    exact hreach s owner (.variable (hatoms ▸ hd) ⟨defn, hdefn, hkind⟩ hhome hne)
  obtain ⟨forClosures, hforClosures⟩ := filterMapM_answers.mpr fun g
      (hg : g ∈ us.functions) => show (do
        p.requireEnclosing u f (do pure (← p.functionAt g).name)
          (← p.foreignClosure? u closures f g)).Answers by
    obtain ⟨use, huse⟩ := foreignClosure?_answers (u := u) (f := f) hp (hclosures g)
    refine answers_bind huse (requireEnclosing_answers fun s owner heq => ?_)
    cases heq
    obtain ⟨hclosure, hparent, hhome, hne⟩ := foreignClosure?_eq.mp huse
    exact hreach s owner (.closure (hatoms ▸ hus.functions.mp hg) hclosure hparent hhome hne)
  exact answers_bind hvars (answers_bind hforClosures ⟨_, rfl⟩)

end

/-! ## What functions need -/

def FromOutside (p : Program) (f : FunctionId) (s : ScopeId) : Prop :=
  ∃ o, p.scopeFunction s = .ok o ∧ o ≠ some f

def Needs (needed : RefMap .functions (RefSet .scopes)) (f : FunctionId) (s : ScopeId) : Prop :=
  ∃ scopes, needed.find? f = some scopes ∧ s ∈ scopes.toList

theorem mem_passedOn {needs : RefSet .scopes} (h : p.passedOn f needs = .ok ss) :
    s ∈ ss ↔ s ∈ needs.toList ∧ p.FromOutside f s := by
  rw [mem_filterM h]
  refine and_congr_right fun _ => ?_
  rw [bind_eq_ok]
  constructor
  · rintro ⟨o, ho, h⟩
    exact ⟨o, ho, of_decide_eq_true (Except.ok.inj h)⟩
  · rintro ⟨o, ho, hne⟩
    exact ⟨o, ho, congrArg Except.ok (decide_eq_true hne)⟩

theorem mem_childNeeds (hnodup : u.parents.keys.Nodup) {N : RefSet .scopes} :
    N ∈ ((u.parents.entries.filter (·.2 = f)).filterMap fun (g, _) => needed.find? g) ↔
      ∃ g, u.parents.find? g = some f ∧ needed.find? g = some N := by
  simp only [List.mem_filterMap, List.mem_filter, decide_eq_true_eq, Prod.exists]
  constructor
  · rintro ⟨g, parent, ⟨hentry, rfl⟩, hN⟩
    exact ⟨g, RefMap.find?_of_mem hnodup hentry, hN⟩
  · rintro ⟨g, hparent, hN⟩
    exact ⟨g, f, ⟨RefMap.mem_of_find? hparent, rfl⟩, hN⟩

theorem mem_nestedNeeds (hnodup : u.parents.keys.Nodup) (h : p.nestedNeeds u needed f = .ok ss) :
    s ∈ ss ↔ ∃ g, u.parents.find? g = some f ∧ Needs needed g s ∧ p.FromOutside f s := by
  obtain ⟨lists, hlists, h⟩ := bind_eq_ok.mp h
  cases h
  simp only [List.mem_flatten, mem_mapM hlists, mem_childNeeds hnodup]
  constructor
  · rintro ⟨l, ⟨N, ⟨g, hparent, hN⟩, hl⟩, hs⟩
    obtain ⟨hs, houtside⟩ := (mem_passedOn hl).mp hs
    exact ⟨g, hparent, ⟨N, hN, hs⟩, houtside⟩
  · rintro ⟨g, hparent, ⟨N, hN, hs⟩, houtside⟩
    obtain ⟨l, hl⟩ := mapM_answers.mp ⟨lists, hlists⟩ N
      ((mem_childNeeds hnodup).mpr ⟨g, hparent, hN⟩)
    exact ⟨l, ⟨N, ⟨g, hparent, hN⟩, hl⟩, (mem_passedOn hl).mpr ⟨hs, houtside⟩⟩

structure NeedsUpTo (p : Program) (u : Usage) (closures : RefSet .functions)
    (done : List FunctionId) (needed : RefMap .functions (RefSet .scopes)) : Prop where
  known : ∀ {f}, (∃ scopes, needed.find? f = some scopes) ↔ f ∈ done
  needs : ∀ {f}, f ∈ done → ∀ {s}, Needs needed f s ↔
    (∃ owner, p.Reaches u closures f s owner) ∨
      ∃ g, u.parents.find? g = some f ∧ Needs needed g s ∧ p.FromOutside f s
  reaches : ∀ {f}, f ∈ done → ∀ {s owner}, p.Reaches u closures f s owner →
    owner ∈ u.ancestorsOf f
  nested : ∀ {f}, f ∈ done → ∀ {g}, u.parents.find? g = some f → g ∈ done
  sorted : needed.Sorted

section

theorem needs_insert_ne {scopes : RefSet .scopes} (hne : g ≠ f) :
    Needs (needed.insert f scopes) g s ↔ Needs needed g s := by
  unfold Needs
  rw [RefMap.find?_insert_ne hne]

theorem NeedsUpTo.step (hu : p.UsageOf u) (h : p.NeedsUpTo u closures done needed)
    (hnew : f ∉ done) (hnested : ∀ {g}, u.parents.find? g = some f → g ∈ done)
    {body : Expr} {us : Uses} (hbody : p.bodyOf? f = some body) (hus : p.UsesOf body us)
    {direct nested : List ScopeId} (hdirect : p.directNeeds u closures f us = .ok direct)
    (hchildren : p.nestedNeeds u needed f = .ok nested) :
    p.NeedsUpTo u closures (done ++ [f]) (needed.insert f (.ofList (direct ++ nested))) := by
  obtain ⟨hdirect, hown⟩ := directNeeds_eq hbody hus hdirect
  have hself : ∀ g, u.parents.find? g = some f → g ≠ f := fun g hg heq =>
    hnew (heq ▸ hnested hg)
  refine ⟨?_, ?_, ?_, ?_, h.sorted.insert _ _⟩
  · intro g
    rw [RefMap.find?_insert, mem_append, mem_singleton, ← h.known]
    by_cases hg : g = f <;> simp [hg]
  · intro g hg s
    rcases mem_append.mp hg with hg | hg
    · have hne : g ≠ f := fun heq => hnew (heq ▸ hg)
      rw [needs_insert_ne hne, h.needs hg]
      refine or_congr_right (exists_congr fun k => and_congr_right fun hk => ?_)
      have hne' : k ≠ f := fun heq => hnew (heq ▸ h.nested hg hk)
      rw [needs_insert_ne hne']
    · cases mem_singleton.mp hg
      have hthis : Needs (needed.insert f (.ofList (direct ++ nested))) f s ↔
          s ∈ direct ∨ s ∈ nested := by
        unfold Needs
        rw [RefMap.find?_insert_self]
        simp [RefSet.mem_ofList]
      rw [hthis, hdirect, mem_nestedNeeds hu.sortedParents.nodup_keys hchildren]
      refine or_congr_right (exists_congr fun k => and_congr_right fun hk => ?_)
      rw [needs_insert_ne (hself k hk)]
  · intro g hg s owner hreach
    rcases mem_append.mp hg with hg | hg
    · exact h.reaches hg hreach
    · cases mem_singleton.mp hg
      exact hown s owner hreach
  · intro g hg k hk
    rcases mem_append.mp hg with hg | hg
    · exact List.mem_append_left _ (h.nested hg hk)
    · cases mem_singleton.mp hg
      exact List.mem_append_left _ (hnested hk)

end

section

variable (hp : p.Consistent) (hu : p.UsageOf u)
include hu

theorem mem_innermostFirst : f ∈ u.innermostFirst ↔ (p.bodyOf? f).isSome = true := by
  unfold Usage.innermostFirst
  rw [List.mem_mergeSort, RefMap.mem_keys_iff]
  simp only [hu.uses]
  constructor
  · rintro ⟨us, body, hbody, _⟩
    exact Option.isSome_iff_exists.mpr ⟨body, hbody⟩
  · intro h
    obtain ⟨body, hbody⟩ := Option.isSome_iff_exists.mp h
    obtain ⟨us, hus⟩ := hu.answered hbody
    exact ⟨us, body, hbody, hus⟩

theorem nodup_innermostFirst : u.innermostFirst.Nodup :=
  (List.mergeSort_perm _ _).nodup_iff.mpr hu.sortedUses.nodup_keys

include hp

theorem nested_before (h : u.innermostFirst = pre ++ f :: post)
    (hg : u.parents.find? g = some f) : g ∈ pre := by
  have hsorted : u.innermostFirst.Pairwise fun f g => decide (u.depthOf g ≤ u.depthOf f) = true := by
    refine List.pairwise_mergeSort (fun a b c hab hbc => ?_) (fun a b => ?_) _
    · simp only [decide_eq_true_eq] at hab hbc ⊢
      omega
    · simp only [Bool.or_eq_true, decide_eq_true_eq]
      omega
  have hdepth := depthOf_parent hp hu hg
  have hmem : g ∈ pre ++ f :: post := h ▸ (mem_innermostFirst hu).mpr (hu.parents.mp hg).1
  rw [h] at hsorted
  rcases mem_append.mp hmem with hmem | hmem
  · exact hmem
  · rcases mem_cons.mp hmem with rfl | hmem
    · omega
    · have hle := (List.pairwise_cons.mp (List.pairwise_append.mp hsorted).2.1).1 g hmem
      rw [decide_eq_true_eq] at hle
      omega

end

structure NeededBy (p : Program) (u : Usage) (closures : RefSet .functions)
    (needed : RefMap .functions (RefSet .scopes)) : Prop where
  needs : ∀ {f s}, (p.bodyOf? f).isSome = true → (Needs needed f s ↔
    (∃ owner, p.Reaches u closures f s owner) ∨
      ∃ g, u.parents.find? g = some f ∧ Needs needed g s ∧ p.FromOutside f s)
  source : ∀ {f s}, Needs needed f s →
    ∃ g owner, p.Reaches u closures g s owner ∧ owner ∈ u.ancestorsOf f
  sorted : needed.Sorted

section

theorem Reaches.scopeFunction (hu : p.UsageOf u)
    (h : p.Reaches u closures f s owner) : p.scopeFunction s = .ok (some owner) := by
  cases h with
  | «variable» _ _ hhome _ =>
    obtain ⟨_, _, _, howner⟩ := hhome
    exact howner
  | @closure g _ _ _ _ hparent hhome _ =>
    obtain ⟨hbody, henclosing⟩ := hu.parents.mp hparent
    rw [enclosingFunction, hhome] at henclosing
    exact henclosing

theorem Reaches.hasBody (h : p.Reaches u closures f s owner) : (p.bodyOf? f).isSome = true := by
  have hbodyOf : ∀ {a}, a ∈ p.bodyAtoms f → (p.bodyOf? f).isSome = true := by
    intro a ha
    obtain ⟨body, hbody, _⟩ := mem_bodyAtoms.mp ha
    exact Option.isSome_iff_exists.mpr ⟨body, hbody⟩
  cases h with
  | «variable» hd _ _ _ => exact hbodyOf hd
  | closure hg _ _ _ _ => exact hg.elim hbodyOf hbodyOf

theorem innermostFirst_lt (hu : p.UsageOf u) (hf : f ∈ u.innermostFirst) :
    f.index < p.functions.size := by
  obtain ⟨body, hbody⟩ := Option.isSome_iff_exists.mp ((mem_innermostFirst hu).mp hf)
  obtain ⟨decl, hdecl, _⟩ := bodyOf?_eq.mp hbody
  exact lt_of_get hdecl

theorem next_innermostFirst (hu : p.UsageOf u) (h : u.innermostFirst = pre ++ f :: post) :
    f ∉ pre ∧ ∃ body us, p.bodyOf? f = some body ∧ p.UsesOf body us ∧ u.uses.find? f = some us := by
  constructor
  · exact notMem_of_nodup (h ▸ nodup_innermostFirst hu)
  · have hmem : f ∈ u.innermostFirst := h ▸ List.mem_append_right pre mem_cons_self
    obtain ⟨body, hbody⟩ := Option.isSome_iff_exists.mp ((mem_innermostFirst hu).mp hmem)
    obtain ⟨us, hus⟩ := hu.answered hbody
    exact ⟨body, us, hbody, usesOf_eq hus, hu.uses.mpr ⟨body, hbody, hus⟩⟩

theorem needsUpTo_nil : p.NeedsUpTo u closures [] .empty :=
  ⟨by simp, fun h => absurd h not_mem_nil, fun h => absurd h not_mem_nil,
    fun h => absurd h not_mem_nil, RefMap.sorted_empty⟩

variable (hp : p.Consistent) (hu : p.UsageOf u)
include hp hu

/-- A function that needs a scope reaches into it, or one nested in it does, and a function
around both owns it. -/
theorem NeedsUpTo.source (h : p.NeedsUpTo u closures done needed)
    (hdone : ∀ f ∈ done, f.index < p.functions.size) : ∀ {f : FunctionId} {s : ScopeId},
      Needs needed f s → ∃ g owner, p.Reaches u closures g s owner ∧ owner ∈ u.ancestorsOf f := by
  -- nested functions come later in the table, so the number of later functions goes down
  suffices hle : ∀ (n : Nat) {f : FunctionId} {s : ScopeId}, p.functions.size - f.index < n →
      Needs needed f s → ∃ g owner, p.Reaches u closures g s owner ∧ owner ∈ u.ancestorsOf f from
    fun {f s} hs => hle _ (Nat.lt_succ_self _) hs
  intro n
  induction n with
  | zero => intro f s hn; exact absurd hn (Nat.not_lt_zero _)
  | succ n ih =>
    intro f s hn hs
    obtain ⟨scopes, hscopes, _⟩ := id hs
    have hf := h.known.mp ⟨scopes, hscopes⟩
    rcases (h.needs hf).mp hs with ⟨owner, hreach⟩ | ⟨g, hparent, hg, o, ho, hne⟩
    · exact ⟨f, owner, hreach, h.reaches hf hreach⟩
    · have hlt := hu.parent_lt hp hparent
      have hfsize := hdone f hf
      obtain ⟨k, owner, hreach, howner⟩ := ih (f := g) (by omega) hg
      refine ⟨k, owner, hreach, ?_⟩
      rw [ancestorsOf_eq hp hu g, hparent] at howner
      rcases mem_cons.mp howner with rfl | howner
      · rw [hreach.scopeFunction hu] at ho
        exact absurd (Except.ok.inj ho).symm hne
      · exact howner

theorem neededContexts_eq
    (h : p.neededContexts u closures = .ok needed) : p.NeededBy u closures needed := by
  have hdone : p.NeedsUpTo u closures ([] ++ u.innermostFirst) needed := by
    refine foldlM_keeps _ [] h needsUpTo_nil ?_
    intro pre f post needed needed' hsplit hpre hstep
    obtain ⟨direct, hdirect, hstep⟩ := bind_eq_ok.mp hstep
    obtain ⟨nested, hnested, hstep⟩ := bind_eq_ok.mp hstep
    cases hstep
    obtain ⟨hnew, body, us, hbody, hus, hfind⟩ := next_innermostFirst hu hsplit
    rw [hfind] at hdirect
    exact hpre.step hu hnew (fun hg => nested_before hp hu hsplit hg) hbody hus hdirect hnested
  rw [List.nil_append] at hdone
  refine ⟨?_, ?_, hdone.sorted⟩
  · intro f s hf
    exact hdone.needs ((mem_innermostFirst hu).mpr hf)
  · intro f s hs
    exact hdone.source hp hu (fun f hf => innermostFirst_lt hu hf) hs

omit hp hu in
theorem nestedNeeds_answers (hscopes : ∀ {g s}, Needs needed g s → (p.scopeFunction s).Answers) :
    (p.nestedNeeds u needed f).Answers := by
  refine (mapM_answers.mpr fun N hN => filterM_answers.mpr fun s hs => ?_).elim
    fun lists hlists => answers_bind hlists ⟨_, rfl⟩
  obtain ⟨⟨g, _⟩, _, hg⟩ := List.mem_filterMap.mp hN
  obtain ⟨o, ho⟩ := hscopes ⟨N, hg, hs⟩
  exact answers_bind ho ⟨_, rfl⟩

/-- If bodies reach into scopes of functions around them only, what functions need is known. -/
theorem neededContexts_answers (hclosures : ∀ g ∈ closures.toList, g.index < p.functions.size)
    (hreach : ∀ {f s owner}, p.Reaches u closures f s owner → owner ∈ u.ancestorsOf f) :
    (p.neededContexts u closures).Answers := by
  refine foldlM_answers (I := fun done needed => p.NeedsUpTo u closures done needed ∧
    ∀ f ∈ done, f.index < p.functions.size) _ [] ⟨needsUpTo_nil, List.forall_mem_nil _⟩ ?_
  intro pre f post needed hsplit ⟨hpre, hsize⟩
  obtain ⟨hnew, body, us, hbody, hus, hfind⟩ := next_innermostFirst hu hsplit
  obtain ⟨direct, hdirect⟩ := directNeeds_answers (u := u) hp hbody hus hclosures
    fun s owner h => hreach h
  obtain ⟨nested, hnested⟩ := nestedNeeds_answers (u := u) (f := f) fun hs =>
    let ⟨_, owner, hreach, _⟩ := hpre.source hp hu hsize hs
    ⟨some owner, hreach.scopeFunction hu⟩
  refine ⟨needed.insert f (.ofList (direct ++ nested)), ?_, ?_, ?_⟩
  · rw [hfind]
    exact bind_eq_ok.mpr ⟨direct, hdirect, bind_eq_ok.mpr ⟨nested, hnested, rfl⟩⟩
  · exact hpre.step hu hnew (fun hg => nested_before hp hu hsplit hg) hbody hus hdirect hnested
  · have hf : f ∈ u.innermostFirst := List.mem_iff_append.mpr ⟨pre, post, hsplit⟩
    exact List.forall_mem_append.mpr ⟨hsize, List.forall_mem_singleton.mpr
      (innermostFirst_lt hu hf)⟩

end

end Program

end StackBackend
