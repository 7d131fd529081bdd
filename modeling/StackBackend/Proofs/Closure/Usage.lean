import StackBackend.Closure.Captures
import StackBackend.Proofs.Expr.Atoms
import StackBackend.Proofs.Program.Nesting
import StackBackend.Proofs.RefTables

/-! What the bodies of a program use. The collected lists are compared with what the bodies
name, and the enclosing functions with the nesting of scopes. -/

namespace StackBackend

open Checked List

variable {f : FunctionId} {body : Expr} {n : Node} {d : DefnId} {usage u : Usage}
  {decl : FunctionDecl}

namespace Program

variable {p : Program}

def bodyOf? (p : Program) (f : FunctionId) : Option Expr := p.functions[f.index]?.bind (·.body)

def bodyAtoms (p : Program) (f : FunctionId) : List Atom := ((p.bodyOf? f).map Expr.atoms).getD []

theorem mem_bodyAtoms {a : Atom} :
    a ∈ p.bodyAtoms f ↔ ∃ body, p.bodyOf? f = some body ∧ a ∈ body.atoms := by
  unfold bodyAtoms
  cases p.bodyOf? f <;> simp

theorem bodyOf?_eq :
    p.bodyOf? f = some body ↔ ∃ decl, p.functions[f.index]? = some decl ∧ decl.body = some body :=
  Option.bind_eq_some_iff

def IsVariable (p : Program) (d : DefnId) : Prop :=
  ∃ defn, p.definitions[d.index]? = some defn ∧ (defn.kind = .parameter ∨ defn.kind = .localVar)

/-! ## One body -/

theorem usedVariable?_eq :
    p.usedVariable? n = .ok (some d) ↔ .variable d ∈ n.atoms ∧ p.IsVariable d := by
  cases n with
  | stmt s => cases s <;> simp [usedVariable?, Node.atoms, pure, Except.pure]
  | clause c => simp [usedVariable?, Node.atoms, pure, Except.pure]
  | expr e =>
    cases e with
    | «variable» ty d' =>
      have hatoms : (Node.expr (.variable ty d')).atoms = [.variable d'] := rfl
      rw [hatoms, mem_singleton, usedVariable?, bind_eq_ok]
      constructor
      · rintro ⟨defn, hdefn, h⟩
        have hdefn' := entryAt_eq_ok.mp hdefn
        cases hkind : defn.kind with
        | parameter =>
          rw [hkind] at h
          cases h
          exact ⟨rfl, defn, hdefn', .inl hkind⟩
        | localVar =>
          rw [hkind] at h
          cases h
          exact ⟨rfl, defn, hdefn', .inr hkind⟩
        | field c => rw [hkind] at h; cases h
        | global i => rw [hkind] at h; cases h
      · rintro ⟨heq, defn, hdefn, hkind⟩
        cases heq
        refine ⟨defn, defnAt_eq hdefn, ?_⟩
        rcases hkind with hkind | hkind <;> rw [hkind] <;> rfl
    | _ => simp [usedVariable?, Node.atoms, Expr.ownAtoms, pure, Except.pure]

theorem usedVariable?_answers (h : ∀ d, .variable d ∈ n.atoms → d.index < p.definitions.size) :
    (p.usedVariable? n).Answers := by
  cases n with
  | stmt s => exact ⟨none, rfl⟩
  | clause c => exact ⟨none, rfl⟩
  | expr e =>
    cases e with
    | «variable» ty d =>
      obtain ⟨defn, hdefn⟩ := exists_of_lt (h d (mem_singleton_self _))
      refine answers_bind (defnAt_eq hdefn) ?_
      cases defn.kind <;> exact ⟨_, rfl⟩
    | _ => exact ⟨none, rfl⟩

theorem called?_eq : n.called? = some f ↔ .call f ∈ n.atoms := by
  cases n with
  | stmt s => cases s <;> simp [Node.called?, Node.atoms]
  | clause c => simp [Node.called?, Node.atoms]
  | expr e => cases e <;> simp [Node.called?, Node.atoms, Expr.ownAtoms, eq_comm]

theorem value?_eq : n.value? = some f ↔ .value f ∈ n.atoms := by
  cases n with
  | stmt s => cases s <;> simp [Node.value?, Node.atoms]
  | clause c => simp [Node.value?, Node.atoms]
  | expr e => cases e <;> simp [Node.value?, Node.atoms, Expr.ownAtoms, eq_comm]

theorem caught?_eq : n.caught? = some d ↔ .catches d ∈ n.atoms := by
  cases n with
  | stmt s => cases s <;> simp [Node.caught?, Node.atoms]
  | clause c =>
    obtain ⟨binding, guard, body⟩ := c
    cases binding <;> simp [Node.caught?, Node.atoms, Clause.binding, eq_comm]
  | expr e => cases e <;> simp [Node.caught?, Node.atoms, Expr.ownAtoms]

theorem mem_atoms_iff {e : Expr} {α : Type} {pick : Node → Option α} {atom : α → Atom}
    (h : ∀ {n x}, pick n = some x ↔ atom x ∈ n.atoms) {x : α} :
    x ∈ e.nodes.filterMap pick ↔ atom x ∈ e.atoms := by
  rw [mem_filterMap, Expr.atoms, mem_flatMap]
  simp only [h]

structure UsesOf (p : Program) (body : Expr) (us : Uses) : Prop where
  defns : ∀ {d}, d ∈ us.defns ↔ .variable d ∈ body.atoms ∧ p.IsVariable d
  calls : ∀ {g}, g ∈ us.calls ↔ .call g ∈ body.atoms
  values : ∀ {g}, g ∈ us.values ↔ .value g ∈ body.atoms

theorem usesOf_eq {us : Uses} (h : p.usesOf body = .ok us) : p.UsesOf body us := by
  obtain ⟨defns, hdefns, h⟩ := bind_eq_ok.mp h
  cases h
  refine ⟨?_, mem_atoms_iff called?_eq, mem_atoms_iff value?_eq⟩
  intro d
  rw [mem_filterMapM hdefns]
  simp only [usedVariable?_eq]
  rw [Expr.atoms, mem_flatMap]
  constructor
  · rintro ⟨n, hn, hd, hvar⟩
    exact ⟨⟨n, hn, hd⟩, hvar⟩
  · rintro ⟨⟨n, hn, hd⟩, hvar⟩
    exact ⟨n, hn, hd, hvar⟩

theorem usesOf_answers {body : Expr}
    (h : ∀ d, .variable d ∈ body.atoms → d.index < p.definitions.size) :
    (p.usesOf body).Answers := by
  obtain ⟨defns, hdefns⟩ := filterMapM_answers.mpr fun n hn =>
    usedVariable?_answers fun d hd => h d (mem_flatMap.mpr ⟨n, hn, hd⟩)
  exact answers_bind hdefns ⟨_, rfl⟩

/-! ## All bodies -/

structure UsageUpTo (p : Program) (done : List FunctionDecl) (u : Usage) : Prop where
  uses : ∀ {f us}, u.uses.find? f = some us ↔
    ∃ decl ∈ done, decl.id = f ∧ ∃ body, decl.body = some body ∧ p.usesOf body = .ok us
  answered : ∀ decl ∈ done, ∀ body, decl.body = some body → (p.usesOf body).Answers
  parents : ∀ {f g}, u.parents.find? f = some g ↔
    ∃ decl ∈ done, decl.id = f ∧ decl.body.isSome = true ∧ p.enclosingFunction f = .ok (some g)
  caught : ∀ {d}, d ∈ u.caught.toList ↔
    ∃ decl ∈ done, ∃ body, decl.body = some body ∧ .catches d ∈ body.atoms
  sortedUses : u.uses.Sorted
  sortedParents : u.parents.Sorted

theorem usageUpTo_nil : p.UsageUpTo [] .empty where
  uses := by simp [Usage.empty]
  answered := forall_mem_nil _
  parents := by simp [Usage.empty]
  caught := by simp [Usage.empty]
  sortedUses := RefMap.sorted_empty
  sortedParents := RefMap.sorted_empty

theorem addFunction_eq_ok : Usage.addFunction p usage decl = .ok u ↔ match decl.body with
      | none => u = usage
      | some body => ∃ us o, p.usesOf body = .ok us ∧ p.enclosingFunction decl.id = .ok o ∧
        u = ⟨usage.uses.insert decl.id us,
          match o with
            | some parent => usage.parents.insert decl.id parent
            | none => usage.parents,
          usage.caught.insertAll (body.nodes.filterMap Node.caught?)⟩ := by
  unfold Usage.addFunction
  cases decl.body with
  | none =>
    constructor
    · intro h
      cases h
      rfl
    · rintro rfl
      rfl
  | some body =>
    constructor
    · intro h
      obtain ⟨us, hus, h⟩ := bind_eq_ok.mp h
      obtain ⟨o, ho, h⟩ := bind_eq_ok.mp h
      refine ⟨us, o, hus, ho, ?_⟩
      cases o <;> cases h <;> rfl
    · rintro ⟨us, o, hus, ho, rfl⟩
      refine bind_eq_ok.mpr ⟨us, hus, bind_eq_ok.mpr ⟨o, ho, ?_⟩⟩
      cases o <;> rfl

theorem UsageUpTo.step {done : List FunctionDecl}
    (h : p.UsageUpTo done usage) (hnew : ∀ other ∈ done, other.id ≠ decl.id)
    (hstep : Usage.addFunction p usage decl = .ok u) : p.UsageUpTo (done ++ [decl]) u := by
  rw [addFunction_eq_ok] at hstep
  cases hbody : decl.body with
  | none =>
    rw [hbody] at hstep
    cases hstep
    refine ⟨?_, ?_, ?_, ?_, h.sortedUses, h.sortedParents⟩
    · intro f us
      rw [h.uses]
      simp [or_and_right, exists_or, hbody]
    · refine forall_mem_append.mpr ⟨h.answered, forall_mem_singleton.mpr fun body h' => ?_⟩
      rw [hbody] at h'
      cases h'
    · intro f g
      rw [h.parents]
      simp [or_and_right, exists_or, hbody]
    · intro d
      rw [h.caught]
      simp [or_and_right, exists_or, hbody]
  | some body =>
    rw [hbody] at hstep
    obtain ⟨us, o, hus, ho, rfl⟩ := hstep
    refine ⟨?_, ?_, ?_, ?_, h.sortedUses.insert _ _, ?_⟩
    · intro f us'
      rw [RefMap.find?_insert]
      by_cases hf : f = decl.id
      · rw [if_pos hf]
        constructor
        · intro heq
          cases heq
          exact ⟨decl, by simp, hf.symm, body, hbody, hus⟩
        · rintro ⟨other, hother, hid, body', hbody', hus'⟩
          rcases mem_append.mp hother with hother | hother
          · exact absurd (hid.trans hf) (hnew other hother)
          · cases mem_singleton.mp hother
            cases hbody.symm.trans hbody'
            exact congrArg some (Except.ok.inj (hus.symm.trans hus'))
      · rw [if_neg hf, h.uses]
        simp [or_and_right, exists_or, Ne.symm hf]
    · refine forall_mem_append.mpr ⟨h.answered, forall_mem_singleton.mpr fun body' h' => ?_⟩
      cases hbody.symm.trans h'
      exact ⟨us, hus⟩
    · intro f g
      have hparents : (match o with
          | some parent => usage.parents.insert decl.id parent
          | none => usage.parents).find? f = if f = decl.id ∧ o.isSome then o
            else usage.parents.find? f := by
        cases o with
        | none => simp
        | some parent => rw [RefMap.find?_insert]; simp
      dsimp only
      rw [hparents]
      by_cases hf : f = decl.id
      · subst hf
        have hnone : usage.parents.find? decl.id = none := by
          rw [Option.eq_none_iff_forall_ne_some]
          intro g' hg'
          obtain ⟨other, hother, hid, _⟩ := h.parents.mp hg'
          exact hnew other hother hid
        have heq : (if decl.id = decl.id ∧ o.isSome then o else usage.parents.find? decl.id) = o := by
          cases o <;> simp [hnone]
        rw [heq]
        constructor
        · rintro rfl
          exact ⟨decl, by simp, rfl, by simp [hbody], ho⟩
        · rintro ⟨_, _, _, _, henclosing⟩
          exact Except.ok.inj (ho.symm.trans henclosing)
      · rw [if_neg (fun h => hf h.1), h.parents]
        simp [or_and_right, exists_or, Ne.symm hf]
    · intro d
      rw [RefSet.mem_insertAll, h.caught, mem_atoms_iff caught?_eq]
      simp [or_and_right, exists_or, hbody]
    · cases o with
      | none => exact h.sortedParents
      | some parent => exact h.sortedParents.insert _ _

structure UsageOf (p : Program) (u : Usage) : Prop where
  uses : ∀ {f us}, u.uses.find? f = some us ↔
    ∃ body, p.bodyOf? f = some body ∧ p.usesOf body = .ok us
  answered : ∀ {f body}, p.bodyOf? f = some body → (p.usesOf body).Answers
  parents : ∀ {f g}, u.parents.find? f = some g ↔
    (p.bodyOf? f).isSome = true ∧ p.enclosingFunction f = .ok (some g)
  caught : ∀ {d}, d ∈ u.caught.toList ↔ ∃ f, .catches d ∈ p.bodyAtoms f
  sortedUses : u.uses.Sorted
  sortedParents : u.parents.Sorted

section

variable (hp : p.Consistent)
include hp

theorem mem_functions :
    (decl ∈ p.functions.toList ∧ decl.id = f) ↔ p.functions[f.index]? = some decl := by
  constructor
  · rintro ⟨hmem, rfl⟩
    obtain ⟨i, hi⟩ := mem_iff_getElem?.mp hmem
    rw [Array.getElem?_toList] at hi
    have hid := (hp.function hi).id
    rw [hid]
    exact hi
  · intro h
    refine ⟨?_, (hp.function h).id⟩
    rw [Array.mem_toList_iff]
    exact Array.mem_of_getElem? h

theorem id_ne_of_before {pre post : List FunctionDecl}
    (h : p.functions.toList = pre ++ decl :: post) : ∀ other ∈ pre, other.id ≠ decl.id := by
  intro other hother hid
  obtain ⟨i, hi⟩ := mem_iff_getElem?.mp hother
  have hlt := (List.getElem?_eq_some_iff.mp hi).1
  have hother' : p.functions[i]? = some other := by
    rw [← Array.getElem?_toList, h, List.getElem?_append_left hlt, hi]
  have hdecl : p.functions[pre.length]? = some decl := by
    rw [← Array.getElem?_toList, h, List.getElem?_append_right (Nat.le_refl _), Nat.sub_self]
    rfl
  rw [(hp.function hother').id, (hp.function hdecl).id] at hid
  cases hid
  exact Nat.lt_irrefl _ hlt

theorem usageOf_done (h : p.UsageUpTo p.functions.toList u) : p.UsageOf u := by
  refine ⟨?_, ?_, ?_, ?_, h.sortedUses, h.sortedParents⟩
  · intro f us
    rw [h.uses]
    simp only [← and_assoc, mem_functions hp, bodyOf?_eq]
    constructor
    · rintro ⟨decl, hdecl, body, hbody, hus⟩
      exact ⟨body, ⟨decl, hdecl, hbody⟩, hus⟩
    · rintro ⟨body, ⟨decl, hdecl, hbody⟩, hus⟩
      exact ⟨decl, hdecl, body, hbody, hus⟩
  · intro f body hbody
    obtain ⟨decl, hdecl, hbody⟩ := bodyOf?_eq.mp hbody
    exact h.answered decl ((mem_functions hp).mpr hdecl).1 body hbody
  · intro f g
    rw [h.parents]
    simp only [← and_assoc, mem_functions hp]
    constructor
    · rintro ⟨decl, ⟨hdecl, hbody⟩, henclosing⟩
      obtain ⟨body, hbody⟩ := Option.isSome_iff_exists.mp hbody
      exact ⟨Option.isSome_iff_exists.mpr ⟨body, bodyOf?_eq.mpr ⟨decl, hdecl, hbody⟩⟩, henclosing⟩
    · rintro ⟨hbody, henclosing⟩
      obtain ⟨body, hbody⟩ := Option.isSome_iff_exists.mp hbody
      obtain ⟨decl, hdecl, hbody⟩ := bodyOf?_eq.mp hbody
      exact ⟨decl, ⟨hdecl, Option.isSome_iff_exists.mpr ⟨body, hbody⟩⟩, henclosing⟩
  · intro d
    rw [h.caught]
    simp only [mem_bodyAtoms, bodyOf?_eq]
    constructor
    · rintro ⟨decl, hdecl, body, hbody, hd⟩
      exact ⟨decl.id, body, ⟨decl, (mem_functions hp).mp ⟨hdecl, rfl⟩, hbody⟩, hd⟩
    · rintro ⟨f, body, ⟨decl, hdecl, hbody⟩, hd⟩
      exact ⟨decl, ((mem_functions hp).mpr hdecl).1, body, hbody, hd⟩

theorem usage_eq_ok (h : Usage.ofProgram p = .ok u) : p.UsageOf u := by
  refine usageOf_done hp ?_
  refine foldlM_keeps _ [] h usageUpTo_nil ?_
  intro pre decl post usage u hsplit hpre hstep
  exact hpre.step (id_ne_of_before hp hsplit) hstep

theorem usage_answers (hvars : ∀ {f d}, .variable d ∈ p.bodyAtoms f → d.index < p.definitions.size) :
    (Usage.ofProgram p).Answers := by
  refine foldlM_answers (I := fun _ _ => True) _ [] trivial ?_
  intro pre decl post usage hsplit _
  have hmem : decl ∈ p.functions.toList := mem_iff_append.mpr ⟨pre, post, hsplit⟩
  have hdecl := (mem_functions hp).mp ⟨hmem, rfl⟩
  suffices hex : ∃ u, Usage.addFunction p usage decl = .ok u by
    obtain ⟨u, hu⟩ := hex
    exact ⟨u, hu, trivial⟩
  simp only [addFunction_eq_ok]
  cases hbody : decl.body with
  | none => exact ⟨usage, rfl⟩
  | some body =>
    obtain ⟨us, hus⟩ := @usesOf_answers p body fun d hd =>
      hvars (mem_bodyAtoms.mpr ⟨body, bodyOf?_eq.mpr ⟨decl, hdecl, hbody⟩, hd⟩)
    obtain ⟨_, o, _, _, _, ho, _⟩ := enclosingFunction_ok hp (lt_of_get hdecl)
    exact ⟨_, us, o, hus, ho, rfl⟩

end

end Program

end StackBackend
