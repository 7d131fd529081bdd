import StackBackend.Expr.Basic

/-! Changing an expression node by node: the children in order of evaluation, then
the node that holds them. -/

namespace StackBackend

variable {m : Type → Type} [Monad m]

mutual
def Expr.mapNodesM (f : Expr → m Expr) : Expr → m Expr
  | .literal ty value => f (.literal ty value)
  | .uninitialized ty => f (.uninitialized ty)
  | .self ty => f (.self ty)
  | .variable ty defn => f (.variable ty defn)
  | .functionValue ty g => f (.functionValue ty g)
  | .field ty receiver defn => do f (.field ty (← receiver.mapNodesM f) defn)
  | .assign ty target value => do
    let target ← target.mapNodesM f
    f (.assign ty target (← value.mapNodesM f))
  | .compound ty op target value => do
    let target ← target.mapNodesM f
    f (.compound ty op target (← value.mapNodesM f))
  | .initField ty receiver defn value => do
    let value ← value.mapNodesM f
    f (.initField ty (← receiver.mapNodesM f) defn value)
  | .binary ty op left right => do
    let left ← left.mapNodesM f
    f (.binary ty op left (← right.mapNodesM f))
  | .unary ty op operand => do f (.unary ty op (← operand.mapNodesM f))
  | .convert ty operand => do f (.convert ty (← operand.mapNodesM f))
  | .and ty left right => do
    let left ← left.mapNodesM f
    f (.and ty left (← right.mapNodesM f))
  | .or ty left right => do
    let left ← left.mapNodesM f
    f (.or ty left (← right.mapNodesM f))
  | .block ty stmts => do f (.block ty (← mapStmts f stmts))
  | .cond ty test onTrue none => do
    let test ← test.mapNodesM f
    f (.cond ty test (← onTrue.mapNodesM f) none)
  | .cond ty test onTrue (some onFalse) => do
    let test ← test.mapNodesM f
    let onTrue ← onTrue.mapNodesM f
    f (.cond ty test onTrue (some (← onFalse.mapNodesM f)))
  | .loop ty test body => do
    let test ← test.mapNodesM f
    f (.loop ty test (← body.mapNodesM f))
  | .call ty g typeArgs args => do f (.call ty g typeArgs (← mapArgs f args))
  | .invoke ty receiver method typeArgs args => do
    let receiver ← receiver.mapNodesM f
    f (.invoke ty receiver method typeArgs (← mapArgs f args))
  | .invokeSelf ty method typeArgs args => do
    f (.invokeSelf ty method typeArgs (← mapArgs f args))
  | .new ty cls constructor args => do f (.new ty cls constructor (← mapArgs f args))
  | .throw ty operand => do f (.throw ty (← operand.mapNodesM f))
  | .ret ty none => f (.ret ty none)
  | .ret ty (some value) => do f (.ret ty (some (← value.mapNodesM f)))
  | .attempt ty body clauses none => do
    let body ← body.mapNodesM f
    f (.attempt ty body (← mapClauses f clauses) none)
  | .attempt ty body clauses (some cleanup) => do
    let body ← body.mapNodesM f
    let clauses ← mapClauses f clauses
    f (.attempt ty body clauses (some (← cleanup.mapNodesM f)))
def mapArgs (f : Expr → m Expr) : List Expr → m (List Expr)
  | [] => pure []
  | arg :: rest => do
    let arg ← arg.mapNodesM f
    pure (arg :: (← mapArgs f rest))
def mapStmts (f : Expr → m Expr) : List Stmt → m (List Stmt)
  | [] => pure []
  | .expr e :: rest => do
    let e ← e.mapNodesM f
    pure (.expr e :: (← mapStmts f rest))
  | .declare defn none :: rest => do pure (.declare defn none :: (← mapStmts f rest))
  | .declare defn (some init) :: rest => do
    let init ← init.mapNodesM f
    pure (.declare defn (some init) :: (← mapStmts f rest))
  | .function g :: rest => do pure (.function g :: (← mapStmts f rest))
def mapClauses (f : Expr → m Expr) : List Clause → m (List Clause)
  | [] => pure []
  | .mk binding guard body :: rest => do
    let body ← body.mapNodesM f
    pure (.mk binding guard body :: (← mapClauses f rest))
end

/-- The expression with each node replaced, children first. -/
def Expr.mapNodes (f : Expr → Expr) (e : Expr) : Expr := e.mapNodesM (m := Id) f

/-- Numbers the 64-bit literals in walk order, counting up from `start`. -/
def Expr.renumber (start : Int64) (e : Expr) : Expr :=
  let next : Expr → StateM Int64 Expr := fun node =>
    match node with
    | .literal ty (.i64 _) => modifyGet fun n => (.literal ty (.i64 n), n + 1)
    | other => pure other
  ((e.mapNodesM next).run start).1

end StackBackend
