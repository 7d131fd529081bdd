import StackBackend.Proofs.Expr.Forms

/-! What expressions name: the variables they use and bind, the functions they call, declare
and use as values, and whether they use the implicit receiver. -/

namespace StackBackend

open List

inductive Atom where
  | self
  | variable (d : DefnId)
  | invokeSelf (f : FunctionId)
  | call (f : FunctionId)
  | value (f : FunctionId)
  | declare (d : DefnId)
  | function (f : FunctionId)
  | catches (d : DefnId)
deriving DecidableEq

def Expr.ownAtoms : Expr → List Atom
  | .self _ => [.self]
  | .variable _ d => [.variable d]
  | .invokeSelf _ f _ _ => [.invokeSelf f]
  | .call _ f _ _ => [.call f]
  | .functionValue _ f => [.value f]
  | _ => []

def Node.atoms : Node → List Atom
  | .expr e => e.ownAtoms
  | .stmt (.declare d _) => [.declare d]
  | .stmt (.function f) => [.function f]
  | .stmt (.expr _) => []
  | .clause c => c.binding.toList.map .catches

def Expr.atoms (e : Expr) : List Atom := e.nodes.flatMap Node.atoms

def atomsOfArgs (args : List Expr) : List Atom := (nodesOfArgs args).flatMap Node.atoms

def atomsOfStmts (stmts : List Stmt) : List Atom := (nodesOfStmts stmts).flatMap Node.atoms

def atomsOfClauses (clauses : List Clause) : List Atom :=
  (nodesOfClauses clauses).flatMap Node.atoms

section

variable {e init : Expr} {d : DefnId} {f : FunctionId} {args : List Expr} {stmts : List Stmt}
  {clauses : List Clause}

@[simp] theorem atomsOfArgs_nil : atomsOfArgs [] = [] := rfl

@[simp] theorem atomsOfArgs_cons : atomsOfArgs (e :: args) = e.atoms ++ atomsOfArgs args :=
  flatMap_append

@[simp] theorem atomsOfArgs_append {args' : List Expr} :
    atomsOfArgs (args ++ args') = atomsOfArgs args ++ atomsOfArgs args' := by
  induction args with
  | nil => rfl
  | cons e rest ih => simp [ih]

theorem mem_atomsOfArgs {a : Atom} : a ∈ atomsOfArgs args ↔ ∃ e ∈ args, a ∈ e.atoms := by
  induction args with
  | nil => simp
  | cons e rest ih => simp [ih]

@[simp] theorem atomsOfStmts_nil : atomsOfStmts [] = [] := rfl

@[simp] theorem atomsOfStmts_expr :
    atomsOfStmts (.expr e :: stmts) = e.atoms ++ atomsOfStmts stmts :=
  flatMap_append

@[simp] theorem atomsOfStmts_declare :
    atomsOfStmts (.declare d none :: stmts) = .declare d :: atomsOfStmts stmts := rfl

@[simp] theorem atomsOfStmts_define :
    atomsOfStmts (.declare d (some init) :: stmts) = .declare d :: (init.atoms ++ atomsOfStmts stmts) :=
  congrArg (Atom.declare d :: ·) flatMap_append

@[simp] theorem atomsOfStmts_function :
    atomsOfStmts (.function f :: stmts) = .function f :: atomsOfStmts stmts := rfl

@[simp] theorem atomsOfStmts_append {stmts' : List Stmt} :
    atomsOfStmts (stmts ++ stmts') = atomsOfStmts stmts ++ atomsOfStmts stmts' := by
  have hnodes : nodesOfStmts (stmts ++ stmts') = nodesOfStmts stmts ++ nodesOfStmts stmts' := by
    induction stmts with
    | nil => rfl
    | cons s rest ih => simp [nodesOfStmts, ih]
  rw [atomsOfStmts, hnodes, flatMap_append]
  rfl

@[simp] theorem atomsOfClauses_cons {binding : Option DefnId} {guard : Option ClassId} :
    atomsOfClauses (.mk binding guard e :: clauses) =
      binding.toList.map .catches ++ (e.atoms ++ atomsOfClauses clauses) := by
  rw [atomsOfClauses, nodesOfClauses, flatMap_cons, flatMap_append]
  rfl

end

namespace Expr

variable {ty : Ty} {e body last : Expr} {stmts : List Stmt} {clauses : List Clause}

theorem atoms_plain (he : e.isPlain = true) : e.atoms = e.ownAtoms ++ atomsOfArgs e.parts := by
  rw [atoms, nodes_plain he]
  rfl

@[simp] theorem atoms_block : (block ty stmts).atoms = atomsOfStmts stmts := rfl

@[simp] theorem atoms_attempt :
    (attempt ty body clauses none).atoms = body.atoms ++ atomsOfClauses clauses :=
  flatMap_append

@[simp] theorem atoms_cleanup :
    (attempt ty body clauses (some last)).atoms =
      body.atoms ++ (atomsOfClauses clauses ++ last.atoms) := by
  rw [atoms, nodes, flatMap_cons, flatMap_append, flatMap_append, append_assoc]
  rfl

@[simp] theorem atoms_variable {d : DefnId} : (Expr.variable ty d).atoms = [.variable d] := rfl

@[simp] theorem atoms_field {d : DefnId} : (Expr.field ty e d).atoms = e.atoms := rfl

theorem withParts_eq {ps : List Expr} (hps : ps.length = e.parts.length) :
    (e.withParts ps).parts = ps ∧ (e.withParts ps).ownAtoms = e.ownAtoms ∧
      (e.withParts ps).isPlain = e.isPlain := by
  cases e with
  | field | unary | convert | throw =>
    obtain ⟨x, rfl⟩ := length_eq_one_iff.mp hps
    exact ⟨rfl, rfl, rfl⟩
  | assign | compound | initField | binary | and | or | loop =>
    obtain ⟨x, y, rfl⟩ := length_eq_two.mp hps
    exact ⟨rfl, rfl, rfl⟩
  | cond ty test onTrue onFalse =>
    cases onFalse with
    | none =>
      obtain ⟨x, y, rfl⟩ := length_eq_two.mp hps
      exact ⟨rfl, rfl, rfl⟩
    | some onFalse =>
      obtain ⟨x, y, z, rfl⟩ := length_eq_three.mp hps
      exact ⟨rfl, rfl, rfl⟩
  | call | invokeSelf | new => exact ⟨rfl, rfl, rfl⟩
  | invoke =>
    cases ps with
    | nil => cases hps
    | cons x rest => exact ⟨rfl, rfl, rfl⟩
  | ret ty value =>
    cases value with
    | none =>
      obtain rfl := eq_nil_of_length_eq_zero hps
      exact ⟨rfl, rfl, rfl⟩
    | some value =>
      obtain ⟨x, rfl⟩ := length_eq_one_iff.mp hps
      exact ⟨rfl, rfl, rfl⟩
  | _ =>
    obtain rfl := eq_nil_of_length_eq_zero hps
    exact ⟨rfl, rfl, rfl⟩

theorem atoms_withParts {ps : List Expr} (he : e.isPlain = true)
    (hps : ps.length = e.parts.length) :
    (e.withParts ps).atoms = e.ownAtoms ++ atomsOfArgs ps := by
  obtain ⟨hparts, hatoms, hplain⟩ := withParts_eq hps
  rw [atoms_plain (hplain.trans he), hparts, hatoms]

end Expr

end StackBackend
