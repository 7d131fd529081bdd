import StackBackend.Proofs.Layout.SlotNames

/-! When a method takes the place of an inherited one. Its types are those of the inherited
method, with type parameters of the methods corresponding by position and type parameters
of the owner standing for the arguments that the class gives them. -/

namespace StackBackend

open List

variable {p : Program} {params params' : List TypeParamId} {args args' : List Ty}

namespace Ty

mutual
/-- The type with variables replaced where a replacement is given. -/
def replace (σ : TypeParamId → Option Ty) : Ty → Ty
  | .variable v => (σ v).getD (.variable v)
  | .object c args nullable => .object c (replaceAll σ args) nullable
  | .unit => .unit
  | .boolean => .boolean
  | .i8 => .i8
  | .i16 => .i16
  | .i32 => .i32
  | .i64 => .i64
  | .f32 => .f32
  | .f64 => .f64
  | .nothing => .nothing
  | .null => .null
def replaceAll (σ : TypeParamId → Option Ty) : List Ty → List Ty
  | [] => []
  | ty :: rest => replace σ ty :: replaceAll σ rest
end

mutual
theorem substitute_eq_replace : ∀ ty : Ty,
    ty.substitute params args = ty.replace (argumentFor params args)
  | .variable _ => rfl
  | .object c args _ => by rw [substitute, replace, substituteAll_eq_replaceAll args]
  | .unit | .boolean | .i8 | .i16 | .i32 | .i64 | .f32 | .f64 | .nothing | .null => rfl
theorem substituteAll_eq_replaceAll : ∀ tys : List Ty,
    substituteAll params args tys = replaceAll (argumentFor params args) tys
  | [] => rfl
  | ty :: rest => by
    rw [substituteAll, replaceAll, substitute_eq_replace ty, substituteAll_eq_replaceAll rest]
end

theorem argumentFor_append (h : args.length = params.length) (v : TypeParamId) :
    argumentFor (params ++ params') (args ++ args') v =
      (argumentFor params args v).or (argumentFor params' args' v) := by
  unfold argumentFor List.idxOf?
  rw [List.findIdx?_append]
  cases hv : params.findIdx? (· == v) with
  | some i =>
    have hi : i < args.length := h ▸ (List.findIdx?_eq_some_iff_getElem.mp hv).1
    simp [List.getElem?_append_left hi, List.getElem?_eq_getElem hi]
  | none =>
    cases params'.findIdx? (· == v) with
    | none => rfl
    | some i => simp [← h, List.getElem?_append_right]

@[simp] theorem argumentFor_nil (v : TypeParamId) : argumentFor params [] v = none := by
  simp [argumentFor]

end Ty

/-- How an inherited method is read where `new` replaces it: type parameters of its owner as
`args`, and its own as those at the same positions of `new`. -/
def FunctionDecl.reading (owner : ClassDecl) (args : List Ty) (old new : FunctionDecl)
    (v : TypeParamId) : Option Ty :=
  (Ty.argumentFor owner.typeParams args v).or
    (Ty.argumentFor old.typeParams (new.typeParams.map Ty.variable) v)

namespace Program

/-- Two methods have as many parameters of either sort, and types that agree once the first
ones are read with `σ`. The receivers do not count. -/
structure Corresponds (p : Program) (σ : TypeParamId → Option Ty) (old new : FunctionDecl) :
    Prop where
  params : old.params.length = new.params.length
  typeParams : old.typeParams.length = new.typeParams.length
  types : ∀ d ∈ (old.params.zip new.params).drop 1, ∃ a b, p.defnAt d.1 = .ok a ∧
    p.defnAt d.2 = .ok b ∧ a.ty.replace σ = b.ty
  result : old.returnTy.replace σ = new.returnTy

theorem sameParams_eq_true : ∀ {ds : List (DefnId × DefnId)},
    p.sameParams params args ds = .ok true ↔ ∀ d ∈ ds, ∃ a b, p.defnAt d.1 = .ok a ∧
      p.defnAt d.2 = .ok b ∧ a.ty.substitute params args = b.ty
  | [] => by simp [sameParams, pure, Except.pure]
  | (d, e) :: rest => by
    rw [sameParams, forall_mem_cons, ← sameParams_eq_true]
    constructor
    · intro h
      obtain ⟨a, ha, h⟩ := Checked.bind_eq_ok.mp h
      obtain ⟨b, hb, h⟩ := Checked.bind_eq_ok.mp h
      split at h
      · exact ⟨⟨a, b, ha, hb, ‹_›⟩, h⟩
      · cases h
    · rintro ⟨⟨a, b, ha, hb, hty⟩, hrest⟩
      refine Checked.bind_eq_ok.mpr ⟨a, ha, Checked.bind_eq_ok.mpr ⟨b, hb, ?_⟩⟩
      rw [if_pos hty, hrest]

theorem isSubtype_refl (p : Program) (ty : Ty) : p.isSubtype ty ty = .ok true := by
  cases ty with
  | object c args nullable => cases nullable <;> simp [isSubtype, isSubclass, isSubclassWithin] <;> rfl
  | _ => simp [isSubtype, Ty.isNullable, pure, Except.pure]

/-- A method takes the place of an inherited one that corresponds to it. If the owner is not
a superclass, it may not be generic unless the inherited method is not. -/
theorem addMethodSlot_of_corresponds {c o : ClassId} {cls owner : ClassDecl}
    {method : FunctionId} {old new : FunctionDecl} {layout : ClassLayout} {i : Nat}
    {s : MethodSlot} {found : Option (List Ty)} (hcls : p.classAt c = .ok cls)
    (hnew : p.functionAt method = .ok new)
    (hi : p.methodNamed? new.name layout.methods = .ok (some i))
    (hs : layout.methods[i]? = some s) (hold : p.functionAt s.function = .ok old)
    (hkind : old.kind.owner? = some o) (howner : p.classAt o = .ok owner)
    (hfound : p.instantiateSupertype ⟨c, cls.typeParams.map .variable, false⟩ o = .ok found)
    (hcomplete : ∀ args ∈ found, args.length = owner.typeParams.length)
    (hplain : found = none → owner.typeParams = [] ∨ old.typeParams = [])
    (h : p.Corresponds (old.reading owner (found.getD []) new) old new) :
    p.addMethodSlot c layout method =
      .ok { layout with methods := layout.methods.set i ⟨method, new.returnTy.storage⟩ } := by
  have hreading : Ty.argumentFor (owner.typeParams ++ old.typeParams)
      (found.getD [] ++ new.typeParams.map .variable) = old.reading owner (found.getD []) new := by
    funext v
    cases found with
    | some args => exact Ty.argumentFor_append (hcomplete args rfl) v
    | none =>
      rcases hplain rfl with hnone | hnone
      · simp [FunctionDecl.reading, hnone]
      · have hvars : new.typeParams = [] := by
          rw [← length_eq_zero_iff, ← h.typeParams, hnone, length_nil]
        simp [FunctionDecl.reading, hvars]
  have hcompatible : p.isCompatibleOverride c s.function method = .ok true := by
    refine (isCompatibleOverride_iff hcls hold hnew hkind howner hfound).mpr
      ⟨⟨h.params, h.typeParams⟩, ?_, ?_⟩
    · simpa only [sameParams_eq_true, Ty.substitute_eq_replace, hreading] using h.types
    · rw [Ty.substitute_eq_replace, hreading, h.result]
      exact isSubtype_refl p _
  refine Checked.bind_eq_ok.mpr ⟨new, hnew, Checked.bind_eq_ok.mpr ⟨some i, hi, ?_⟩⟩
  dsimp only
  rw [hs]
  split
  · rfl
  · exact Checked.bind_eq_ok.mpr ⟨true, hcompatible, rfl⟩

end Program

/-! A class `Handler` and its method `handle` have a type parameter each, and so has a method
of a second class that replaces it. -/

def FunctionDecl.handle (id typeParam : Nat) : FunctionDecl :=
  { shapeMethod id "handle" id with
    typeParams := [⟨typeParam⟩], params := [⟨0⟩, ⟨2 * id + 1⟩, ⟨2 * id + 2⟩] }

def ClassDecl.handler : ClassDecl :=
  { shape 0 "Handler" none [] [⟨0⟩] none with typeParams := [⟨0⟩] }

/-- The second method has a first parameter of the given type. -/
def Program.handlers (supertype : Option ClassTy) (interfaces : List ClassId) (ty : Ty) : Program :=
  let param id ty : Definition := ⟨⟨id⟩, "x", .parameter, ty, false, ⟨0⟩⟩
  { Program.empty with
    definitions := #[param 0 .unit, param 1 (.variable ⟨0⟩), param 2 (.variable ⟨1⟩),
      param 3 ty, param 4 (.variable ⟨2⟩)]
    classes := #[.handler, .shape 1 "Counter" supertype interfaces [⟨1⟩] none]
    functions := #[.handle 0 1, .handle 1 2] }

theorem addMethodSlot_of_corresponds_handlers :
    let p := Program.handlers (some ⟨⟨0⟩, [.i64], false⟩) [] .i64
    p.Corresponds (FunctionDecl.reading .handler [.i64] (.handle 0 1) (.handle 1 2))
      (.handle 0 1) (.handle 1 2) ∧
    p.addMethodSlot ⟨1⟩ ⟨[], [⟨⟨0⟩, some .bits32⟩]⟩ ⟨1⟩ = .ok ⟨[], [⟨⟨1⟩, some .bits32⟩]⟩ := by
  intro p
  have h : p.Corresponds (FunctionDecl.reading .handler [.i64] (.handle 0 1) (.handle 1 2))
      (.handle 0 1) (.handle 1 2) :=
    ⟨rfl, rfl, forall_mem_cons.mpr ⟨⟨_, _, rfl, rfl, rfl⟩, forall_mem_cons.mpr
      ⟨⟨_, _, rfl, rfl, rfl⟩, nofun⟩⟩, rfl⟩
  have hfound : p.instantiateSupertype ⟨⟨1⟩, [], false⟩ ⟨0⟩ = .ok (some [.i64]) := rfl
  refine ⟨h, @Program.addMethodSlot_of_corresponds p ⟨1⟩ _ _ _ _ _ _ ⟨[], [⟨⟨0⟩, _⟩]⟩ 0 _ _
    rfl rfl rfl rfl rfl rfl rfl hfound ?_ nofun h⟩
  rintro _ ⟨⟩
  rfl

/-- The type parameter of a generic interface displaces that of its method. -/
theorem generic_interface_method_refused :
    let p := Program.handlers none [⟨0⟩] (.variable ⟨0⟩)
    p.Corresponds (FunctionDecl.reading .handler [] (.handle 0 1) (.handle 1 2))
      (.handle 0 1) (.handle 1 2) ∧
    p.addMethodSlot ⟨1⟩ ⟨[], [⟨⟨0⟩, some .bits32⟩]⟩ ⟨1⟩ =
      reject (.incompatibleOverride "Counter" "handle") :=
  ⟨⟨rfl, rfl, forall_mem_cons.mpr ⟨⟨_, _, rfl, rfl, rfl⟩, forall_mem_cons.mpr
    ⟨⟨_, _, rfl, rfl, rfl⟩, nofun⟩⟩, rfl⟩, rfl⟩

end StackBackend
