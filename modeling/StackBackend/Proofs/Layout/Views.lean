import StackBackend.Proofs.Layout.Overrides
import StackBackend.Proofs.Program.TypeParams

/-! Superclasses as a class sees them. Each class on the way up hands on type arguments, in
which its own type parameters stand for those it was given. What a class sees of a superclass
is what the classes between them see, one after another. -/

namespace StackBackend

open List

variable {p : Program} {σ τ ρ : TypeParamId → Option Ty} {v : TypeParamId}
  {params : List TypeParamId} {args : List Ty}

theorem mem_mentionsOfTys {m : Mention} {tys : List Ty} :
    m ∈ mentionsOfTys tys ↔ ∃ ty ∈ tys, m ∈ ty.mentions := by
  induction tys with
  | nil => simp [mentionsOfTys]
  | cons ty rest ih => simp [mentionsOfTys, ih]

namespace Ty

/-! ## Replacement -/

/-- What stands for a variable. -/
def image (σ : TypeParamId → Option Ty) (v : TypeParamId) : Ty := (σ v).getD (.variable v)

mutual
theorem replace_replace : ∀ ty : Ty, (∀ v, .typeParam v ∈ ty.mentions →
    (image σ v).replace τ = image ρ v) → (ty.replace σ).replace τ = ty.replace ρ
  | .variable v, h => h v (by simp [mentions])
  | .object c args _, h => by
    rw [replace, replace, replace, replaceAll_replaceAll args fun v hv => h v (.tail _ hv)]
  | .unit, _ | .boolean, _ | .i8, _ | .i16, _ | .i32, _ | .i64, _ | .f32, _ | .f64, _
  | .nothing, _ | .null, _ => rfl
theorem replaceAll_replaceAll : ∀ tys : List Ty, (∀ v, .typeParam v ∈ mentionsOfTys tys →
    (image σ v).replace τ = image ρ v) → replaceAll τ (replaceAll σ tys) = replaceAll ρ tys
  | [], _ => rfl
  | ty :: rest, h => by
    rw [replaceAll, replaceAll, replaceAll,
      replace_replace ty fun v hv => h v (mem_append_left _ hv),
      replaceAll_replaceAll rest fun v hv => h v (mem_append_right _ hv)]
end

mutual
theorem replace_none : ∀ ty : Ty, ty.replace (fun _ => none) = ty
  | .object c args _ => by rw [replace, replaceAll_none args]
  | .variable _ | .unit | .boolean | .i8 | .i16 | .i32 | .i64 | .f32 | .f64 | .nothing | .null => rfl
theorem replaceAll_none : ∀ tys : List Ty, replaceAll (fun _ => none) tys = tys
  | [] => rfl
  | ty :: rest => by rw [replaceAll, replace_none ty, replaceAll_none rest]
end

theorem replace_congr {ty : Ty} (h : ∀ v, .typeParam v ∈ ty.mentions → image σ v = image ρ v) :
    ty.replace σ = ty.replace ρ := by
  rw [← replace_none (ty.replace σ)]
  exact replace_replace ty fun v hv => by rw [replace_none, h v hv]

mutual
theorem mem_mentions_replace : ∀ ty : Ty, .typeParam v ∈ (ty.replace σ).mentions →
    ∃ w, .typeParam w ∈ ty.mentions ∧ .typeParam v ∈ (image σ w).mentions
  | .variable w, h => ⟨w, by simp [mentions], h⟩
  | .object c args _, h => by
    rw [replace, mentions, mem_cons] at h
    obtain ⟨w, hw, hv⟩ := mem_mentions_replaceAll args (h.resolve_left nofun)
    exact ⟨w, .tail _ hw, hv⟩
  | .unit, h | .boolean, h | .i8, h | .i16, h | .i32, h | .i64, h | .f32, h | .f64, h
  | .nothing, h | .null, h => nomatch h
theorem mem_mentions_replaceAll : ∀ tys : List Ty, .typeParam v ∈ mentionsOfTys (replaceAll σ tys) →
    ∃ w, .typeParam w ∈ mentionsOfTys tys ∧ .typeParam v ∈ (image σ w).mentions
  | [], h => nomatch h
  | ty :: rest, h => by
    rw [replaceAll, mentionsOfTys, mem_append] at h
    rcases h with h | h
    · obtain ⟨w, hw, hv⟩ := mem_mentions_replace ty h
      exact ⟨w, mem_append_left _ hw, hv⟩
    · obtain ⟨w, hw, hv⟩ := mem_mentions_replaceAll rest h
      exact ⟨w, mem_append_right _ hw, hv⟩
end

theorem replaceAll_eq_map : ∀ tys : List Ty, replaceAll σ tys = tys.map (replace σ)
  | [] => rfl
  | ty :: rest => by rw [replaceAll, replaceAll_eq_map rest, map_cons]

/-! ## Arguments -/

theorem argumentFor_of_notMem (h : v ∉ params) : argumentFor params args v = none := by
  rw [argumentFor, List.idxOf?_eq_none_iff.mpr h]
  rfl

theorem argumentFor_of_mem (h : v ∈ params) : ∃ i, ∃ hi : i < params.length, params[i] = v ∧
    ∀ args : List Ty, argumentFor params args v = args[i]? := by
  cases hv : params.idxOf? v with
  | none => exact absurd h (List.idxOf?_eq_none_iff.mp hv)
  | some i =>
    obtain ⟨hi, heq, _⟩ := List.findIdx?_eq_some_iff_getElem.mp hv
    refine ⟨i, hi, by simpa using heq, fun args => ?_⟩
    rw [argumentFor, hv]
    rfl

theorem argumentFor_getElem (h : params.Nodup) {i : Nat} (hi : i < params.length) :
    argumentFor params args params[i] = args[i]? := by
  obtain ⟨j, hj, heq, hargs⟩ := argumentFor_of_mem (getElem_mem hi)
  rw [hargs, (List.Nodup.getElem_inj_iff h).mp heq]

end Ty

namespace Program

/-! ## The way up -/

/-- A class with type arguments, and its superclass with those that it is handed. -/
def Hands (p : Program) (x y : ClassId × List Ty) : Prop :=
  ∃ cls st, p.classAt x.1 = .ok cls ∧ cls.supertype = some st ∧
    y = (st.cls, Ty.replaceAll (Ty.argumentFor cls.typeParams x.2) st.args)

/-- A class and those on its superclass chain, with type arguments. -/
def Along (p : Program) : ClassId × List Ty → ClassId × List Ty → Prop :=
  Relation.ReflTransGen p.Hands

/-- Each class gives its superclass as many arguments as that has type parameters. -/
def ArgsComplete (p : Program) : Prop :=
  ∀ cls ∈ p.classes.toList, ∀ st ∈ cls.supertype, ∀ base ∈ p.classes[st.cls.index]?,
    st.args.length = base.typeParams.length

variable {a b c : ClassId} {x y : ClassId × List Ty} {xs ys : List Ty} {acls bcls ccls : ClassDecl}

theorem mem_classes (hc : p.classAt c = .ok ccls) : ccls ∈ p.classes.toList :=
  Array.mem_toList_iff.mpr (Array.mem_of_getElem? (entryAt_eq_ok.mp hc))

theorem exists_along (h : p.Above c a) : ∀ xs, ∃ ys, p.Along (c, xs) (a, ys) := by
  induction h using Relation.ReflTransGen.head_induction_on with
  | refl => exact fun xs => ⟨xs, .refl⟩
  | head hstep _ ih =>
    intro xs
    obtain ⟨cls, st, hcls, hst, rfl⟩ := hstep
    obtain ⟨ys, hys⟩ := ih (Ty.replaceAll (Ty.argumentFor cls.typeParams xs) st.args)
    exact ⟨ys, .head ⟨cls, st, hcls, hst, rfl⟩ hys⟩

section

variable (hfirst : p.SuperclassesFirst)
include hfirst

theorem Hands.lt (h : p.Hands x y) : y.1.index < x.1.index := by
  obtain ⟨cls, st, hcls, hst, rfl⟩ := h
  exact hfirst (entryAt_eq_ok.mp hcls) st hst

theorem Along.le (h : p.Along x y) : y.1.index ≤ x.1.index := by
  induction h with
  | refl => exact le_rfl
  | tail _ hstep ih => exact ((hstep.lt hfirst).le).trans ih

theorem instantiateWithin_of_along (h : p.Along x (a, ys)) :
    ∀ {n : Nat} {nullable : Bool}, x.1.index < n →
      p.instantiateWithin a n ⟨x.1, x.2, nullable⟩ = .ok (some ys) := by
  induction h using Relation.ReflTransGen.head_induction_on with
  | refl =>
    intro n nullable hn
    obtain ⟨n, rfl⟩ := Nat.exists_eq_succ_of_ne_zero (Nat.ne_of_gt ((Nat.zero_le _).trans_lt hn))
    exact instantiateWithin_succ.mpr (.inl ⟨rfl, rfl⟩)
  | @head x y hstep hrest ih =>
    intro n nullable hn
    obtain ⟨n, rfl⟩ := Nat.exists_eq_succ_of_ne_zero (Nat.ne_of_gt ((Nat.zero_le _).trans_lt hn))
    have hlt := hstep.lt hfirst
    have hle : a.index ≤ y.1.index := Along.le hfirst hrest
    obtain ⟨cls, st, hcls, hst, rfl⟩ := hstep
    have hne : x.1 ≠ a := by
      rintro rfl
      exact absurd hle hlt.not_ge
    refine instantiateWithin_succ.mpr (.inr ⟨hne, cls, st, hcls, hst, ?_⟩)
    rw [handed, ← Ty.substituteAll_eq_map, Ty.substituteAll_eq_replaceAll]
    exact ih (hlt.trans_le (Nat.le_of_lt_succ hn))

end

theorem Along.length (h : p.Along (b, xs) (a, ys)) (hcomplete : p.ArgsComplete)
    (hb : p.classAt b = .ok bcls) (hlen : xs.length = bcls.typeParams.length)
    (ha : p.classAt a = .ok acls) : ys.length = acls.typeParams.length := by
  rcases Relation.ReflTransGen.cases_tail h with heq | ⟨_, _, cls, st, hcls, hst, heq⟩
  · cases heq
    cases hb.symm.trans ha
    exact hlen
  · cases heq
    rw [Ty.replaceAll_eq_map, length_map]
    exact hcomplete cls (mem_classes hcls) st hst acls (entryAt_eq_ok.mp ha)

/-- What stands for the type parameters of a class may be replaced first or last, if other
variables are left alone. -/
theorem Along.replace (h : p.Along (b, xs) y) (hfirst : p.SuperclassesFirst) (hcomplete : p.ArgsComplete)
    (hb : p.classAt b = .ok bcls) (hlen : xs.length = bcls.typeParams.length)
    (hτ : ∀ {k cls st v}, k.index ≤ b.index → p.classAt k = .ok cls → cls.supertype = some st →
      .typeParam v ∈ mentionsOfTys st.args → v ∉ cls.typeParams → τ v = none) :
    p.Along (b, Ty.replaceAll τ xs) (y.1, Ty.replaceAll τ y.2) := by
  induction h with
  | refl => exact .refl
  | @tail y z hrest hstep ih =>
    have hle : y.1.index ≤ b.index := Along.le hfirst hrest
    obtain ⟨cls, st, hcls, hst, rfl⟩ := hstep
    have hlength := Along.length hrest hcomplete hb hlen hcls
    refine .tail ih ⟨cls, st, hcls, hst, ?_⟩
    dsimp only
    rw [Ty.replaceAll_replaceAll (ρ := Ty.argumentFor cls.typeParams (Ty.replaceAll τ y.2))]
    intro v hv
    by_cases hmem : v ∈ cls.typeParams
    · obtain ⟨i, hi, _, hargs⟩ := Ty.argumentFor_of_mem hmem
      have hi' : i < y.2.length := hlength ▸ hi
      rw [Ty.image, Ty.image, hargs, hargs, Ty.replaceAll_eq_map, List.getElem?_map,
        List.getElem?_eq_getElem hi']
      rfl
    · rw [Ty.image, Ty.image, Ty.argumentFor_of_notMem hmem, Ty.argumentFor_of_notMem hmem]
      rw [Option.getD_none, Ty.replace, hτ hle hcls hst hv hmem, Option.getD_none]

/-! ## Views -/

/-- The type arguments of a superclass, as the class sees it. -/
def SeenAs (p : Program) (c a : ClassId) (args : List Ty) : Prop :=
  ∃ cls, p.classAt c = .ok cls ∧ p.Along (c, cls.typeParams.map .variable) (a, args)

theorem SeenAs.refl (hc : p.classAt c = .ok ccls) : p.SeenAs c c (ccls.typeParams.map .variable) :=
  ⟨ccls, hc, .refl⟩

theorem SeenAs.length (h : p.SeenAs c a args) (hcomplete : p.ArgsComplete)
    (ha : p.classAt a = .ok acls) : args.length = acls.typeParams.length := by
  obtain ⟨cls, hcls, halong⟩ := h
  exact halong.length hcomplete hcls (length_map _) ha

section

variable (hfirst : p.SuperclassesFirst)
include hfirst

theorem SeenAs.instantiate (h : p.SeenAs c a args) (hc : p.classAt c = .ok ccls) :
    p.instantiateSupertype ⟨c, ccls.typeParams.map .variable, false⟩ a = .ok (some args) := by
  obtain ⟨cls, hcls, halong⟩ := h
  cases hc.symm.trans hcls
  exact instantiateWithin_of_along hfirst halong (Nat.lt_succ_of_lt (lt_size_of_entryAt hc))

variable (hapart : p.TypeParamsApart)
include hapart

theorem SeenAs.mem (h : p.SeenAs c a args) (hcomplete : p.ArgsComplete) (hc : p.classAt c = .ok ccls)
    (hv : .typeParam v ∈ mentionsOfTys args) : v ∈ ccls.typeParams ∨ ¬ p.Listed c.index v := by
  obtain ⟨cls, hcls, halong⟩ := h
  cases hc.symm.trans hcls
  revert hv
  suffices hall : ∀ {y : ClassId × List Ty}, p.Along (c, ccls.typeParams.map .variable) y →
      ∀ v, .typeParam v ∈ mentionsOfTys y.2 → v ∈ ccls.typeParams ∨ ¬ p.Listed c.index v from
    hall halong v
  intro y hy
  induction hy with
  | refl =>
    intro v hv
    obtain ⟨_, hty, hv⟩ := mem_mentionsOfTys.mp hv
    obtain ⟨w, hw, rfl⟩ := mem_map.mp hty
    obtain rfl : v = w := by simpa [Ty.mentions] using hv
    exact .inl hw
  | @tail y z hrest hstep ih =>
    intro v hv
    have hle : y.1.index ≤ c.index := Along.le hfirst hrest
    obtain ⟨cls, st, hcls, hst, rfl⟩ := hstep
    obtain ⟨w, hw, hv⟩ := Ty.mem_mentions_replaceAll _ hv
    by_cases hmem : w ∈ cls.typeParams
    · have hlength := Along.length hrest hcomplete hc (length_map _) hcls
      obtain ⟨i, hi, _, hargs⟩ := Ty.argumentFor_of_mem hmem
      have hi' : i < y.2.length := hlength ▸ hi
      rw [Ty.image, hargs, List.getElem?_eq_getElem hi'] at hv
      exact ih v (mem_mentionsOfTys.mpr ⟨_, getElem_mem hi', hv⟩)
    · rw [Ty.image, Ty.argumentFor_of_notMem hmem] at hv
      obtain rfl : v = w := by simpa [Ty.mentions] using hv
      exact .inr ((hapart.used (entryAt_eq_ok.mp hcls) hst hw hmem).2 hle)

theorem SeenAs.trans (h : p.SeenAs c b xs) (h' : p.SeenAs b a ys) (hcomplete : p.ArgsComplete)
    (hb : p.classAt b = .ok bcls) :
    p.SeenAs c a (Ty.replaceAll (Ty.argumentFor bcls.typeParams xs) ys) := by
  have hlen := h.length hcomplete hb
  obtain ⟨cls, hcls, halong⟩ := h
  obtain ⟨bcls', hb', halong'⟩ := h'
  cases hb.symm.trans hb'
  refine ⟨cls, hcls, halong.trans ?_⟩
  have hreplace := halong'.replace (τ := Ty.argumentFor bcls.typeParams xs) hfirst hcomplete hb
    (length_map _) fun hle hk hst hv hnot => Ty.argumentFor_of_notMem fun hmem =>
      (hapart.used (entryAt_eq_ok.mp hk) hst hv hnot).2 hle (.inl ⟨bcls, entryAt_eq_ok.mp hb, hmem⟩)
  have hxs : Ty.replaceAll (Ty.argumentFor bcls.typeParams xs) (bcls.typeParams.map .variable) = xs := by
    rw [Ty.replaceAll_eq_map, map_map]
    refine List.ext_getElem (by simp [hlen]) fun i hi hi' => ?_
    simp only [length_map] at hi
    simp [Ty.replace, Ty.argumentFor_getElem (hapart.nodup (entryAt_eq_ok.mp hb)) hi, hi']
  rw [hxs] at hreplace
  exact hreplace

end

end Program

end StackBackend
