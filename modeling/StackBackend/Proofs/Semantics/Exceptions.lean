import StackBackend.Proofs.Semantics.FunctionRuns

/-! What the code of a function does about exceptions. A protected body, the clause that
is chosen for an exception and the cleanup follow each other as told by the rules below,
at every depth of nesting, and the machine follows them. -/

namespace StackBackend

open List

namespace Meaning

variable {α : Type} {body : Meaning α} {handle : Value → Meaning (Option α)}
  {cleanup : Meaning Unit} {σ σ1 σ2 : Source}

def ended (o : Except Exit α) : Meaning α := fun σ => some (o, σ)

variable {x : Value} (h : body σ = some (.error (.thrown x), σ1))
include h

end Meaning

namespace Runtime

open Meaning

variable (R : Runtime) (returnTy : Ty) (rounds : Nat)

/-! ## The rules -/

end Runtime

/-- The exception is in the variable of a clause, if it has one. -/
def Source.binding (σ : Source) (binding : Option DefnId) (x : Value) : Source :=
  match binding with
  | some d => { σ with vars := Function.update σ.vars d x }
  | none => σ

namespace Runtime

variable (R : Runtime) (returnTy : Ty) (rounds : Nat)

variable {R returnTy rounds}

section Clauses

variable {clause : Clause} {clauses : List Clause} {x : Value} {σ : Source}

end Clauses

/-! ## Handlers -/

section Handlers

variable {ty : Ty} {body : Expr} {clauses : List Clause} {cleanup : Option Expr} {σ σ' : Source}
  {o : Except Exit Value}

end Handlers

end Runtime

def Expr.rescuing : Expr :=
  let n : Expr := .variable .i64 ⟨15⟩
  let add (k : Int64) : Expr := .mkCompound .add n (.ofLiteral (.i64 k))
  .mkBlock [
    .expr (.mkAttempt
      (.mkAttempt (.mkThrow (.variable (.ofClass exceptionClass) ⟨14⟩))
        [.mk none (some typeClass) (.mkAssign n (.ofLiteral (.i64 1)))] (some (add 10)))
      [.mk (some ⟨16⟩) none (.mkBlock [.expr (add 100), .expr (.mkRet (some n))])]
      (some (add 1000))),
    .expr n]

def FunctionDecl.rescuing : FunctionDecl :=
  { id := ⟨10⟩, name := "rescue", kind := .global, scope := ⟨0⟩, returnTy := .i64,
    typeParams := [], params := [⟨14⟩, ⟨15⟩], chain := none, isBuiltin := false, isFinal := false,
    lowered := none, body := some .rescuing }

def Program.rescuing : Program :=
  { Program.initial with
    definitions := Program.initial.definitions ++ #[
      ⟨⟨14⟩, "x", .parameter, .ofClass exceptionClass, false, ⟨0⟩⟩,
      ⟨⟨15⟩, "n", .parameter, .i64, true, ⟨0⟩⟩,
      ⟨⟨16⟩, "e", .localVar, .ofClass exceptionClass, false, ⟨0⟩⟩]
    functions := Program.initial.functions.push .rescuing }

def Program.rescuingFlat : Program :=
  match Pass.flattenClasses Program.rescuing with
  | .ok _ p | .error _ p => p

def Runtime.rescuing : Runtime := ⟨.rescuingFlat, .integers, fun _ => .unit⟩

/-- `n` is 3 and `x` is an exception. -/
def Source.rescuing : Source where
  vars d := if d = ⟨14⟩ then .object 0 else .i64 3
  world := ⟨fun _ => .unit, fun _ => some ⟨exceptionClass, []⟩, []⟩

def Memory.rescuing : Memory where
  frame i := if i = 0 then .object 0 else .i64 3
  world := Source.rescuing.world
  typeObjects := []

end StackBackend
