import StackBackend.Program.Hierarchy

/-! Classes in an order in which each one follows its superclass and its
interfaces. A depth-first walk keeps the classes it is inside of; meeting one of
them again is a cycle. -/

namespace StackBackend.Program

/-- What a class is built on: its superclass, then its interfaces. -/
def bases (cls : ClassDecl) : List ClassId :=
  (cls.supertype.map ClassTy.cls).toList ++ cls.interfaces

/-- Adds to `order` what `c` is built on, then `c`. The walk is inside `path`,
whose members differ, so it goes no deeper than there are classes. -/
def visitClass (p : Program) : Nat → List ClassId → List ClassId → ClassId →
    Checked (List ClassId)
  | 0, _, order, _ => pure order
  | steps + 1, path, order, c => do
    let cls ← p.classAt c
    if c ∈ order then pure order
    else if c ∈ path then reject (.inheritanceCycle cls.name)
    else
      let order ← (bases cls).foldlM (visitClass p steps (c :: path)) order
      pure (order ++ [c])

def inheritanceOrder (p : Program) : Checked (List ClassId) :=
  (p.classes.toList.map ClassDecl.id).foldlM (p.visitClass (p.classes.size + 1) []) []

end StackBackend.Program
