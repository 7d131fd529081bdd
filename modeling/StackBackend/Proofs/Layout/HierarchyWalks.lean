import StackBackend.Proofs.Layout.SlotNames

/-! Walks up the superclasses. They stop after as many steps as there are classes, which cuts none
of them short: a class that can be reached is reached without coming by any class twice, also where
superclasses form a cycle. -/

namespace StackBackend.Program

open List
open Relation (TransGen)

/-! ## Ways up -/

/-- The classes that a walk to `a` steps up from. -/
inductive Climbs (p : Program) (a : ClassId) : ClassId → List ClassId → Prop where
  | here : Climbs p a a []
  | up {c b : ClassId} {path : List ClassId} (hstep : p.Extends c b) (h : Climbs p a b path) :
    Climbs p a c (c :: path)

variable {p : Program} {a b c sup : ClassId} {path : List ClassId} {n : Nat} {ty : ClassTy}
  {found : List Ty}

theorem Climbs.known (h : p.Climbs a c path) : ∀ x ∈ path, x.index < p.classes.size := by
  induction h with
  | here => nofun
  | up hstep _ ih =>
    obtain ⟨cls, _, hcls, _⟩ := hstep
    exact forall_mem_cons.mpr ⟨lt_size_of_entryAt hcls, ih⟩

theorem Climbs.drop (h : p.Climbs a b path) (hc : c ∈ path) :
    ∃ rest, p.Climbs a c rest ∧ rest <:+ path := by
  induction h with
  | here => cases hc
  | up hstep hrest ih =>
    rcases mem_cons.mp hc with rfl | hc
    · exact ⟨_, .up hstep hrest, suffix_rfl⟩
    · obtain ⟨rest, hclimbs, hsuffix⟩ := ih hc
      exact ⟨rest, hclimbs, hsuffix.trans (suffix_cons _ _)⟩

theorem Above.climbs (h : p.Above c a) :
    ∃ path, p.Climbs a c path ∧ path.length ≤ p.classes.size := by
  suffices hpath : ∃ path, p.Climbs a c path ∧ path.Nodup by
    obtain ⟨path, hclimbs, hnodup⟩ := hpath
    exact ⟨path, hclimbs, length_path_le hnodup hclimbs.known⟩
  induction h using Relation.ReflTransGen.head_induction_on with
  | refl => exact ⟨[], .here, .nil⟩
  | @head c b hstep _ ih =>
    obtain ⟨path, hclimbs, hnodup⟩ := ih
    by_cases hc : c ∈ path
    · -- what lies between two visits to a class is left out
      obtain ⟨rest, hrest, hsuffix⟩ := hclimbs.drop hc
      exact ⟨rest, hrest, hnodup.sublist hsuffix.sublist⟩
    · exact ⟨c :: path, .up hstep hclimbs, nodup_cons.mpr ⟨hc, hnodup⟩⟩

/-! ## Subclasses -/

theorem isSubclassWithin_of_climbs (h : p.Climbs a c path)
    (hend : sup = a ∨ ∃ cls, p.classAt a = .ok cls ∧ sup ∈ cls.interfaces) :
    ∀ {n}, path.length < n → p.isSubclassWithin sup n c = .ok true := by
  induction h with
  | here =>
    intro n hn
    obtain ⟨n, rfl⟩ := Nat.exists_eq_add_of_lt hn
    exact isSubclassWithin_succ.mpr (hend.imp .symm fun ⟨cls, hcls, hmem⟩ => ⟨cls, hcls, .inl hmem⟩)
  | up hstep _ ih =>
    intro n hn
    obtain ⟨n, rfl⟩ := Nat.exists_eq_add_of_lt hn
    obtain ⟨cls, st, hcls, hst, rfl⟩ := hstep
    refine isSubclassWithin_succ.mpr (.inr ⟨cls, hcls, .inr ⟨st, hst, ih ?_⟩⟩)
    simp only [length_cons]
    omega

theorem isSubclass_iff : p.isSubclass c sup = .ok true ↔ p.Supplies sup c := by
  refine ⟨supplies_of_isSubclassWithin _, ?_⟩
  rintro ⟨a, habove, hend⟩
  obtain ⟨path, hclimbs, hlen⟩ := habove.climbs
  exact isSubclassWithin_of_climbs hclimbs hend (Nat.lt_succ_of_le hlen)

/-! ## Type arguments -/

theorem instantiateWithin_mono {m : Nat} (h : p.instantiateWithin a n ty = .ok (some found))
    (hm : n ≤ m) : p.instantiateWithin a m ty = .ok (some found) := by
  induction n generalizing m ty with
  | zero => cases h
  | succ n ih =>
    obtain ⟨m, rfl⟩ := Nat.exists_eq_add_of_le' (Nat.one_le_of_lt hm)
    rcases instantiateWithin_succ.mp h with h | ⟨hne, cls, st, hcls, hst, h⟩
    · exact instantiateWithin_succ.mpr (.inl h)
    · exact instantiateWithin_succ.mpr (.inr ⟨hne, cls, st, hcls, hst, ih h (Nat.le_of_succ_le_succ hm)⟩)

theorem above_of_instantiateWithin (h : p.instantiateWithin a n ty = .ok (some found)) :
    p.Above ty.cls a := by
  induction n generalizing ty with
  | zero => cases h
  | succ n ih =>
    rcases instantiateWithin_succ.mp h with ⟨rfl, _⟩ | ⟨_, cls, st, hcls, hst, h⟩
    · exact .refl
    · have hstep : p.Extends ty.cls st.cls := ⟨cls, st, hcls, hst, rfl⟩
      have hrest : p.Above (handed cls st ty.args).cls a := ih h
      exact .head hstep hrest

theorem instantiateWithin_of_climbs (h : p.Climbs a c path) :
    ∀ {n} (ty : ClassTy), ty.cls = c → path.length < n →
      ∃ found, p.instantiateWithin a n ty = .ok (some found) := by
  induction h with
  | here =>
    intro n ty hty hn
    obtain ⟨n, rfl⟩ := Nat.exists_eq_add_of_lt hn
    exact ⟨ty.args, instantiateWithin_succ.mpr (.inl ⟨hty, rfl⟩)⟩
  | @up c b path hstep _ ih =>
    rintro n ty rfl hn
    obtain ⟨n, rfl⟩ := Nat.exists_eq_add_of_lt hn
    by_cases ha : ty.cls = a
    · exact ⟨ty.args, instantiateWithin_succ.mpr (.inl ⟨ha, rfl⟩)⟩
    obtain ⟨cls, st, hcls, hst, rfl⟩ := hstep
    obtain ⟨found, hfound⟩ := ih (n := (ty.cls :: path).length + n) (handed cls st ty.args) rfl
      (by simp only [length_cons]; omega)
    exact ⟨found, instantiateWithin_succ.mpr (.inr ⟨ha, cls, st, hcls, hst, hfound⟩)⟩

theorem instantiateSupertype_iff (ty : ClassTy) :
    (∃ found, p.instantiateSupertype ty a = .ok (some found)) ↔ p.Above ty.cls a := by
  refine ⟨fun ⟨_, h⟩ => above_of_instantiateWithin h, fun h => ?_⟩
  obtain ⟨path, hclimbs, hlen⟩ := h.climbs
  exact instantiateWithin_of_climbs hclimbs ty rfl (Nat.lt_succ_of_le hlen)

theorem instantiateSupertype_step {cls : ClassDecl} {st : ClassTy} (hne : ty.cls ≠ a)
    (hcls : p.classAt ty.cls = .ok cls) (hst : cls.supertype = some st) (habove : p.Above st.cls a) :
    p.instantiateSupertype ty a = p.instantiateSupertype (handed cls st ty.args) a := by
  have hstep : p.Extends ty.cls st.cls := ⟨cls, st, hcls, hst, rfl⟩
  obtain ⟨found, hfound⟩ := (instantiateSupertype_iff (handed cls st ty.args)).mpr habove
  obtain ⟨found', hfound'⟩ := (instantiateSupertype_iff ty).mpr (.head hstep habove)
  have hlonger := instantiateWithin_mono hfound' (Nat.le_succ _)
  have hsame := instantiateWithin_succ.mpr (.inr ⟨hne, cls, st, hcls, hst, hfound⟩)
  rw [hfound, hfound', Option.some.inj (Except.ok.inj (hlonger.symm.trans hsame))]

theorem instantiateSupertype_via (hacyclic : ∀ c, ¬ TransGen p.Extends c c)
    (h : p.instantiateWithin b n ty = .ok (some found)) (hab : p.Above b a) :
    p.instantiateSupertype ty a = p.instantiateSupertype ⟨b, found, false⟩ a := by
  induction n generalizing ty with
  | zero => cases h
  | succ n ih =>
    rcases instantiateWithin_succ.mp h with ⟨rfl, rfl⟩ | ⟨_, cls, st, hcls, hst, h⟩
    · rfl
    · have habove : p.Above st.cls a := (above_of_instantiateWithin h).trans hab
      have hstep : p.Extends ty.cls st.cls := ⟨cls, st, hcls, hst, rfl⟩
      have hne : ty.cls ≠ a := by
        rintro rfl
        exact hacyclic _ (.head' hstep habove)
      rw [instantiateSupertype_step hne hcls hst habove]
      exact ih h

/-! ## Answers -/

section

variable (hknown : ∀ {c b}, p.Extends c b → b.index < p.classes.size)
include hknown

theorem exists_isSubclassWithin (sup : ClassId) (n : Nat) : ∀ {c}, c.index < p.classes.size →
    ∃ answer, p.isSubclassWithin sup n c = .ok answer := by
  induction n with
  | zero => exact fun _ => ⟨_, rfl⟩
  | succ n ih =>
    intro c hc
    obtain ⟨cls, hcls⟩ : ∃ cls, p.classAt c = .ok cls :=
      ⟨_, entryAt_eq_ok.mpr (Array.getElem?_eq_getElem hc)⟩
    rw [isSubclassWithin, hcls]
    dsimp only [bind, Except.bind]
    split
    · exact ⟨_, rfl⟩
    split
    · exact ⟨_, rfl⟩
    split
    · exact ih (hknown ⟨cls, _, hcls, ‹_›, rfl⟩)
    · exact ⟨_, rfl⟩

theorem exists_instantiateWithin (a : ClassId) (n : Nat) : ∀ {ty : ClassTy},
    ty.cls.index < p.classes.size → ∃ answer, p.instantiateWithin a n ty = .ok answer := by
  induction n with
  | zero => exact fun _ => ⟨_, rfl⟩
  | succ n ih =>
    intro ty hty
    obtain ⟨cls, hcls⟩ : ∃ cls, p.classAt ty.cls = .ok cls :=
      ⟨_, entryAt_eq_ok.mpr (Array.getElem?_eq_getElem hty)⟩
    rw [instantiateWithin, hcls]
    dsimp only [bind, Except.bind]
    split
    · exact ⟨_, rfl⟩
    split
    · exact ⟨_, rfl⟩
    · rename_i st hst
      exact ih (hknown ⟨cls, st, hcls, hst, rfl⟩)

end

/-- A walk finds what is on the superclass chain and nothing else, and where the chain has no
cycle the type arguments do not depend on where it was stopped on the way. -/
theorem hierarchy_walks_exact (hknown : ∀ {c b}, p.Extends c b → b.index < p.classes.size) :
    (∀ c sup, c.index < p.classes.size →
      ∃ answer, p.isSubclass c sup = .ok answer ∧ (answer = true ↔ p.Supplies sup c)) ∧
    (∀ ty target, ty.cls.index < p.classes.size → ∃ answer,
      p.instantiateSupertype ty target = .ok answer ∧ (answer.isSome ↔ p.Above ty.cls target)) ∧
    ((∀ c, ¬ TransGen p.Extends c c) → ∀ ty b a args,
      p.instantiateSupertype ty b = .ok (some args) → p.Above b a →
      p.instantiateSupertype ty a = p.instantiateSupertype ⟨b, args, false⟩ a) := by
  refine ⟨fun c sup hc => ?_, fun ty target hty => ?_, fun hacyclic ty b a args h hab =>
    instantiateSupertype_via hacyclic h hab⟩
  · obtain ⟨answer, h⟩ := exists_isSubclassWithin hknown sup _ hc
    refine ⟨answer, h, ?_⟩
    rw [← isSubclass_iff, isSubclass, h]
    simp
  · obtain ⟨answer, h⟩ := exists_instantiateWithin hknown target _ hty
    refine ⟨answer, h, ?_⟩
    rw [← instantiateSupertype_iff ty, instantiateSupertype, h]
    simp [Option.isSome_iff_exists]

def looped : Program :=
  { Program.empty with
    classes := #[.shape 0 "A" (some ⟨⟨1⟩, [], false⟩) [] [] none,
      .shape 1 "B" (some ⟨⟨0⟩, [], false⟩) [⟨2⟩] [] none, .shape 2 "I" none [] [] none] }

theorem hierarchy_walks_exact_looped :
    looped.isSubclass ⟨0⟩ ⟨2⟩ = .ok true ∧ looped.Supplies ⟨2⟩ ⟨0⟩ ∧
    looped.instantiateSupertype ⟨⟨0⟩, [], false⟩ ⟨2⟩ = .ok none ∧ ¬ looped.Above ⟨0⟩ ⟨2⟩ := by
  have hknown : ∀ {c b}, looped.Extends c b → b.index < looped.classes.size := by
    rintro c b ⟨cls, st, hcls, hst, rfl⟩
    rcases mem_of_entryAt hcls with _ | ⟨_, _ | ⟨_, _ | ⟨_, ⟨⟩⟩⟩⟩ <;> cases hst <;> decide
  obtain ⟨hsubclass, hinstantiate, _⟩ := hierarchy_walks_exact hknown
  have hyes : looped.isSubclass ⟨0⟩ ⟨2⟩ = .ok true := rfl
  have hno : looped.instantiateSupertype ⟨⟨0⟩, [], false⟩ ⟨2⟩ = .ok none := rfl
  obtain ⟨answer, h, hiff⟩ := hsubclass ⟨0⟩ ⟨2⟩ (by decide)
  obtain ⟨answer', h', hiff'⟩ := hinstantiate ⟨⟨0⟩, [], false⟩ ⟨2⟩ (by decide)
  cases hyes.symm.trans h
  cases hno.symm.trans h'
  exact ⟨hyes, hiff.mp rfl, hno, fun habove => by cases hiff'.mpr habove⟩

end StackBackend.Program
