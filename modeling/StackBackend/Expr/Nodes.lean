import StackBackend.Expr.Basic

/-! The nodes of an expression in the order a walk meets them: a node before its
children, and the children in order of evaluation. A clause of a handler comes
right before its body. -/

namespace StackBackend

inductive Node where
  | expr (e : Expr)
  | stmt (s : Stmt)
  | clause (c : Clause)

mutual
def Expr.nodes (e : Expr) : List Node :=
  .expr e :: match e with
    | .literal .. | .uninitialized _ | .self _ | .variable .. | .functionValue .. => []
    | .field _ receiver _ => receiver.nodes
    | .assign _ target value | .compound _ _ target value => target.nodes ++ value.nodes
    | .initField _ receiver _ value => value.nodes ++ receiver.nodes
    | .binary _ _ left right | .and _ left right | .or _ left right => left.nodes ++ right.nodes
    | .unary _ _ operand | .convert _ operand | .throw _ operand => operand.nodes
    | .block _ stmts => nodesOfStmts stmts
    | .cond _ test onTrue none => test.nodes ++ onTrue.nodes
    | .cond _ test onTrue (some onFalse) => test.nodes ++ onTrue.nodes ++ onFalse.nodes
    | .loop _ test body => test.nodes ++ body.nodes
    | .call _ _ _ args | .invokeSelf _ _ _ args | .new _ _ _ args => nodesOfArgs args
    | .invoke _ receiver _ _ args => receiver.nodes ++ nodesOfArgs args
    | .ret _ none => []
    | .ret _ (some value) => value.nodes
    | .attempt _ body clauses none => body.nodes ++ nodesOfClauses clauses
    | .attempt _ body clauses (some cleanup) =>
      body.nodes ++ nodesOfClauses clauses ++ cleanup.nodes
def nodesOfArgs : List Expr → List Node
  | [] => []
  | arg :: rest => arg.nodes ++ nodesOfArgs rest
def nodesOfStmts : List Stmt → List Node
  | [] => []
  | stmt :: rest => stmt.nodes ++ nodesOfStmts rest
def nodesOfClauses : List Clause → List Node
  | [] => []
  | .mk binding guard body :: rest =>
    .clause (.mk binding guard body) :: (body.nodes ++ nodesOfClauses rest)
def Stmt.nodes (s : Stmt) : List Node :=
  .stmt s :: match s with
    | .expr e => e.nodes
    | .declare _ none => []
    | .declare _ (some init) => init.nodes
    | .function _ => []
end

def Node.declared? : Node → Option DefnId
  | .stmt (.declare defn _) => some defn
  | .clause c => c.binding
  | _ => none

/-- The variables declared in an expression, in order of declaration. -/
def Expr.declaredLocals (e : Expr) : List DefnId := e.nodes.filterMap Node.declared?

def Expr.form : Expr → String
  | .literal .. => "Literal"
  | .uninitialized _ => "Uninitialized"
  | .self _ => "This"
  | .variable .. => "Variable"
  | .field .. => "Field"
  | .assign .. => "Assign"
  | .compound .. => "CompoundAssign"
  | .initField .. => "InitField"
  | .binary .. => "Binary"
  | .unary .. => "Unary"
  | .convert .. => "Convert"
  | .and .. => "And"
  | .or .. => "Or"
  | .block .. => "Block"
  | .cond .. => "If"
  | .loop .. => "While"
  | .call .. | .invoke .. | .invokeSelf .. => "Call"
  | .new .. => "New"
  | .functionValue .. => "FunctionValue"
  | .throw .. => "Throw"
  | .ret .. => "Return"
  | .attempt .. => "Try"

end StackBackend
