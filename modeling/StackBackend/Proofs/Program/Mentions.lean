import StackBackend.Closure.Receiver
import StackBackend.Program.Builtins
import StackBackend.Proofs.Expr.AllNodes

/-! The ids of classes, functions and type parameters that occur in a program, as one
list, and what it takes for each of them to be in range. A clause without a guard
means the exception class, so it counts as an occurrence of it. -/

namespace StackBackend

open List

inductive Mention where
  | cls (c : ClassId)
  | function (f : FunctionId)
  | typeParam (t : TypeParamId)
deriving DecidableEq

/-- What is mentioned is there. -/
def Mention.inRange (p : Program) : Mention → Bool
  | .cls c => c.index < p.classes.size
  | .function f => f.index < p.functions.size
  | .typeParam t => t.index < p.typeParams.size

mutual
def Ty.mentions : Ty → List Mention
  | .object c args _ => .cls c :: mentionsOfTys args
  | .variable t => [.typeParam t]
  | .unit | .boolean | .i8 | .i16 | .i32 | .i64 | .f32 | .f64 | .nothing | .null => []
def mentionsOfTys : List Ty → List Mention
  | [] => []
  | ty :: rest => ty.mentions ++ mentionsOfTys rest
end

/-- What a node mentions itself; its parts are nodes of their own. -/
def Expr.ownMentions : Expr → List Mention
  | .call _ f typeArgs _ | .invoke _ _ f typeArgs _ | .invokeSelf _ f typeArgs _ =>
    .function f :: mentionsOfTys typeArgs
  | .new _ c f _ => [.cls c, .function f]
  | .functionValue _ f => [.function f]
  | _ => []

def Node.mentions : Node → List Mention
  | .expr e => e.ty.mentions ++ e.ownMentions
  | .stmt (.function f) => [.function f]
  | .stmt _ => []
  | .clause c => [.cls (c.guard.getD exceptionClass)]

def Expr.mentions (e : Expr) : List Mention := e.nodes.flatMap Node.mentions

def ClassTy.mentions (ty : ClassTy) : List Mention := .cls ty.cls :: mentionsOfTys ty.args

def Definition.mentions (d : Definition) : List Mention :=
  d.ty.mentions ++ match d.kind with
    | .field c => [.cls c]
    | _ => []

def ClassDecl.mentions (c : ClassDecl) : List Mention :=
  (c.supertype.map ClassTy.mentions).getD [] ++ c.interfaces.map .cls ++
    c.typeParams.map .typeParam ++ (c.fields.filterMap FieldDecl.init).flatMap Expr.mentions ++
    (c.methods ++ c.constructors ++ c.initializer.toList).map .function ++
    ((c.layout.map ClassLayout.methods).getD []).map (.function ·.function)

def ChainCall.mentions : ChainCall → List Mention
  | .implicit => []
  | .super f _ | .sibling f _ => [.function f]

def FunctionDecl.mentions (f : FunctionDecl) : List Mention :=
  f.kind.owner?.toList.map .cls ++ f.returnTy.mentions ++ f.typeParams.map .typeParam ++
    (f.chain.map (·.call.mentions)).getD [] ++ f.exprs.flatMap Expr.mentions

def Program.mentions (p : Program) : List Mention :=
  p.definitions.toList.flatMap Definition.mentions ++
    p.classes.toList.flatMap ClassDecl.mentions ++
    p.functions.toList.flatMap FunctionDecl.mentions ++
    (p.globals.toList.filterMap GlobalDecl.init).flatMap Expr.mentions ++
    p.initFunction.toList.map .function

section

variable {P : Mention → Prop}

/-- The property holds of every id in a type. -/
def Ty.AllIds (P : Mention → Prop) (ty : Ty) : Prop := ∀ m ∈ ty.mentions, P m

theorem forall_mentionsOfTys {tys : List Ty} :
    (∀ m ∈ mentionsOfTys tys, P m) ↔ ∀ ty ∈ tys, ty.AllIds P := by
  induction tys with
  | nil => simp [mentionsOfTys]
  | cons ty rest ih =>
    rw [mentionsOfTys, forall_mem_append, ih, forall_mem_cons]
    rfl

@[simp] theorem Ty.allIds_object {c : ClassId} {args : List Ty} {nullable : Bool} :
    (Ty.object c args nullable).AllIds P ↔ P (.cls c) ∧ ∀ ty ∈ args, ty.AllIds P := by
  rw [Ty.AllIds, Ty.mentions, forall_mem_cons, forall_mentionsOfTys]

@[simp] theorem Ty.allIds_variable {t : TypeParamId} :
    (Ty.variable t).AllIds P ↔ P (.typeParam t) := by
  simp [Ty.AllIds, Ty.mentions]

mutual
theorem Ty.AllIds.substitute {params : List TypeParamId} {args : List Ty}
    (ha : ∀ ty ∈ args, ty.AllIds P) : ∀ {ty : Ty}, ty.AllIds P →
      (ty.substitute params args).AllIds P
  | .variable v, h => by
    rw [Ty.substitute]
    cases hv : argumentFor params args v with
    | none => exact h
    | some ty =>
      obtain ⟨i, _, hi⟩ := Option.bind_eq_some_iff.mp hv
      exact ha ty (mem_of_getElem? hi)
  | .object c targs nullable, h => by
    rw [Ty.substitute, allIds_object]
    rw [allIds_object] at h
    exact ⟨h.1, Ty.AllIds.substituteAll ha h.2⟩
  | .unit, h | .boolean, h | .i8, h | .i16, h | .i32, h | .i64, h | .f32, h | .f64, h
  | .nothing, h | .null, h => h
theorem Ty.AllIds.substituteAll {params : List TypeParamId} {args : List Ty}
    (ha : ∀ ty ∈ args, ty.AllIds P) : ∀ {tys : List Ty}, (∀ ty ∈ tys, ty.AllIds P) →
      ∀ ty ∈ Ty.substituteAll params args tys, ty.AllIds P
  | [], _ => fun _ h => nomatch h
  | ty :: rest, h => by
    rw [Ty.substituteAll, forall_mem_cons]
    rw [forall_mem_cons] at h
    exact ⟨Ty.AllIds.substitute ha h.1, Ty.AllIds.substituteAll ha h.2⟩
end

end

end StackBackend
