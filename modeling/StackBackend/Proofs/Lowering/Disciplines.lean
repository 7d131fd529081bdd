import Mathlib.Logic.Function.Iterate
import StackBackend.Proofs.Lowering.Questions

/-! What is known of the stack at a point of the code, in general: a discipline says what one
more value does to it and what a region does. Some calls take what was pushed for them, and a
cleanup is entered with the same on the stack from both sides only where a value is asked for. -/

namespace StackBackend

/-- Whether an instruction takes what was pushed for it, and leaves one value. -/
def Inst.isApplied : Inst → Bool
  | .allocate _ | .classType _ | .call _ | .callVirtual .. => Bool.true
  | _ => Bool.false

/-- A kind of fact about the stack. -/
structure Discipline (F : Type) where
  raise : F → F
  guard : BlockId → F → F
  /-- What may be below the result when a function returns. -/
  IsBase : F → Prop
  /-- How many operands may have been pushed for an instruction. -/
  takes : Inst → Nat → Prop
  guard_raise : ∀ h x, guard h (raise x) = raise (guard h x)
  isBase_raise : ∀ x, IsBase x → IsBase (raise x)

variable {F : Type}

def Discipline.free : Discipline Unit where
  raise := id
  guard _ := id
  IsBase _ := True
  takes _ _ := True
  guard_raise _ _ := rfl
  isBase_raise _ _ := trivial

/-- Values do not count. -/
def Discipline.Flat (D : Discipline F) : Prop := ∀ x, D.raise x = x

/-- What an expression adds to the stack. -/
def Discipline.lift (D : Discipline F) : Mode → F → F
  | .value => D.raise
  | .effect => id

theorem Discipline.lift_guard (D : Discipline F) (mode : Mode) (h : BlockId) (x : F) :
    D.lift mode (D.guard h x) = D.guard h (D.lift mode x) := by
  cases mode with
  | value => exact (D.guard_raise h x).symm
  | effect => rfl

/-- The type arguments that are pushed for the class that declares a method. -/
def Site.OwnerArgs (site : Site) (receiver : Ty) (method : FunctionId) (args : List Ty) : Prop :=
  ∃ f, site.program.functionAt method = .ok f ∧
    match receiver.classTy?, f.kind.owner? with
    | some ty, some owner =>
      ∃ found, site.program.instantiateSupertype ty owner = .ok found ∧ args = found.getD []
    | _, _ => args = []

def ChainCall.Feeds (cls : ClassDecl) (takes : Inst → Nat → Prop) : ChainCall → Prop
  | .implicit => True
  | .super f args =>
    takes (.call f) (((cls.supertype.map ClassTy.args).getD []).length + (args.length + 1))
  | .sibling f args => takes (.call f) (cls.typeParams.length + (args.length + 1))

/-! ## Cleanups -/

mutual
/-- Whatever has a cleanup is lowered for its value. -/
def Expr.CleanupsValued : Expr → Mode → Prop
  | .literal .., _ | .uninitialized _, _ | .self _, _ | .variable .., _ | .functionValue .., _
  | .ret _ none, _ => True
  | .field _ operand _, _ | .unary _ _ operand, _ | .convert _ operand, _ | .throw _ operand, _
  | .ret _ (some operand), _ => operand.CleanupsValued .value
  | .assign _ left right, _ | .compound _ _ left right, _ | .initField _ left _ right, _
  | .binary _ _ left right, _ | .and _ left right, _ | .or _ left right, _ =>
    left.CleanupsValued .value ∧ right.CleanupsValued .value
  | .block _ stmts, mode => StmtsValued stmts mode
  | .cond _ test onTrue none, _ => test.CleanupsValued .value ∧ onTrue.CleanupsValued .effect
  | .cond _ test onTrue (some onFalse), mode =>
    test.CleanupsValued .value ∧ onTrue.CleanupsValued mode ∧ onFalse.CleanupsValued mode
  | .loop _ test body, _ => test.CleanupsValued .value ∧ body.CleanupsValued .effect
  | .call _ _ _ args, _ | .invokeSelf _ _ _ args, _ | .new _ _ _ args, _ => ArgsValued args
  | .invoke _ receiver _ _ args, _ => receiver.CleanupsValued .value ∧ ArgsValued args
  | .attempt _ body clauses none, mode => body.CleanupsValued mode ∧ ClausesValued clauses mode
  | .attempt _ body clauses (some cleanup), mode =>
    mode = .value ∧ body.CleanupsValued mode ∧ ClausesValued clauses mode ∧
      cleanup.CleanupsValued .effect
def ArgsValued : List Expr → Prop
  | [] => True
  | arg :: rest => arg.CleanupsValued .value ∧ ArgsValued rest
def StmtsValued : List Stmt → Mode → Prop
  | [], _ => True
  | [.expr e], mode => e.CleanupsValued mode
  | .expr e :: rest, mode => e.CleanupsValued .effect ∧ StmtsValued rest mode
  | .declare _ none :: rest, mode => StmtsValued rest mode
  | .declare _ (some init) :: rest, mode => init.CleanupsValued .value ∧ StmtsValued rest mode
  | .function _ :: rest, mode => StmtsValued rest mode
def ClausesValued : List Clause → Mode → Prop
  | [], _ => True
  | .mk _ _ body :: rest, mode => body.CleanupsValued mode ∧ ClausesValued rest mode
end

/-- Whatever has a cleanup in the function is lowered for its value. -/
def FunctionDecl.CleanupsValued (f : FunctionDecl) : Prop :=
  ArgsValued (f.chain.getD .initial).call.args ∧ ∀ body ∈ f.body, body.CleanupsValued
    (match f.kind with
      | .constructor _ => .effect
      | _ => .value)

end StackBackend
