import StackBackend.Program.Basic

/-! The class hierarchy: superclasses, subtyping, and type arguments seen from a
subclass. A superclass chain without repetition is no longer than the class
table, which bounds every walk. -/

namespace StackBackend.Program

/-- The class applied to its own type parameters. -/
def thisClassTy (p : Program) (c : ClassId) : Checked ClassTy := do
  pure ⟨c, (← p.classAt c).typeParams.map Ty.variable, false⟩

/-- The type of the receiver inside members of a class. -/
def thisTy (p : Program) (c : ClassId) : Checked Ty := do
  pure (← p.thisClassTy c).toTy

def superclass (p : Program) (c : ClassId) : Checked (Option ClassId) := do
  pure ((← p.classAt c).supertype.map ClassTy.cls)

def isSubclassWithin (p : Program) (sup : ClassId) : Nat → ClassId → Checked Bool
  | 0, _ => pure false
  | steps + 1, c =>
    if c = sup then pure true
    else do
      let cls ← p.classAt c
      if sup ∈ cls.interfaces then pure true
      else match cls.supertype with
        | some st => isSubclassWithin p sup steps st.cls
        | none => pure false

/-- Whether `sup` is on the superclass chain of `sub`, or an interface of a class
on it. -/
def isSubclass (p : Program) (sub sup : ClassId) : Checked Bool :=
  p.isSubclassWithin sup (p.classes.size + 1) sub

def isSubtype (p : Program) (sub sup : Ty) : Checked Bool :=
  match sub, sup with
  | .nothing, _ => pure true
  | .null, other => pure other.isNullable
  | .object a _ nullable, .object b _ nullable' =>
    if !nullable || nullable' then p.isSubclass a b else pure false
  | a, b => pure (a = b)

def instantiateWithin (p : Program) (target : ClassId) :
    Nat → ClassTy → Checked (Option (List Ty))
  | 0, _ => pure none
  | steps + 1, ty =>
    if ty.cls = target then pure (some ty.args)
    else do
      let cls ← p.classAt ty.cls
      match cls.supertype with
      | none => pure none
      | some st =>
        instantiateWithin p target steps
          ⟨st.cls, st.args.map (·.substitute cls.typeParams ty.args), false⟩

/-- The type arguments of a superclass, seen from an instantiated class. -/
def instantiateSupertype (p : Program) (ty : ClassTy) (target : ClassId) :
    Checked (Option (List Ty)) :=
  p.instantiateWithin target (p.classes.size + 1) ty

end StackBackend.Program
