import StackBackend.Stored.Ty
import StackBackend.Expr.Basic

/-! Stored form of expressions: an object with the form of the node and its type. -/

namespace StackBackend

namespace Literal

def toJson : Literal → Json
  | .unit => .string "Unit"
  | .boolean b => .tagged "Boolean" (.bool b)
  | .i8 n => .tagged "I8" (.ofInt n.toInt)
  | .i16 n => .tagged "I16" (.ofInt n.toInt)
  | .i32 n => .tagged "I32" (.ofInt n.toInt)
  | .i64 n => .tagged "I64" (.ofInt n.toInt)
  | .f32 x => .tagged "F32" x.toJson
  | .f64 x => .tagged "F64" x.toJson
  | .string s => .tagged "String" (.string s)
  | .null => .string "Null"

def signed? (bits : Nat) (j : Json) : Option Int := j.int? (-twoPow (bits - 1)) (twoPow (bits - 1))

def ofJson? (j : Json) : Option Literal :=
  match j.variant? with
  | some ("Boolean", some v) => v.bool?.map .boolean
  | some ("I8", some v) => (signed? 8 v).map fun n => .i8 (.ofInt n)
  | some ("I16", some v) => (signed? 16 v).map fun n => .i16 (.ofInt n)
  | some ("I32", some v) => (signed? 32 v).map fun n => .i32 (.ofInt n)
  | some ("I64", some v) => (signed? 64 v).map fun n => .i64 (.ofInt n)
  | some ("F32", some v) => (Binary32.ofJson? v).map .f32
  | some ("F64", some v) => (Binary64.ofJson? v).map .f64
  | some ("String", some v) => v.string?.map .string
  | _ => match j.plainVariant? with
    | some "Unit" => some .unit
    | some "Null" => some .null
    | _ => none

end Literal

def BinaryOp.toJson (op : BinaryOp) : Json := .string op.name

def BinaryOp.ofJson? (j : Json) : Option BinaryOp := j.named? BinaryOp.name BinaryOp.all

def UnaryOp.toJson (op : UnaryOp) : Json := .string op.name

def UnaryOp.ofJson? (j : Json) : Option UnaryOp := j.named? UnaryOp.name UnaryOp.all

namespace Expr

def node (ty : Ty) (form : Json) : Json := .object [("kind", form), ("ty", ty.toJson)]

def callForm (callee : Json) (typeArgs : List Ty) (args : List Json) : Json :=
  .tagged "Call" (.object [("callee", callee), ("type_args", .ofList Ty.toJson typeArgs),
    ("args", .array args)])

mutual
def toJson : Expr → Json
  | .literal ty value => node ty (.tagged "Literal" value.toJson)
  | .uninitialized ty => node ty (.string "Uninitialized")
  | .self ty => node ty (.string "This")
  | .variable ty defn => node ty (.tagged "Variable" defn.toJson)
  | .field ty receiver defn =>
    node ty (.tagged "Field" (.object [("receiver", toJson receiver), ("field", defn.toJson)]))
  | .assign ty target value =>
    node ty (.tagged "Assign" (.object [("target", toJson target), ("value", toJson value)]))
  | .compound ty op target value =>
    node ty (.tagged "CompoundAssign" (.object [("op", op.toJson), ("target", toJson target),
      ("value", toJson value)]))
  | .initField ty receiver defn value =>
    node ty (.tagged "InitField" (.object [("receiver", toJson receiver),
      ("field", defn.toJson), ("value", toJson value)]))
  | .binary ty op left right =>
    node ty (.tagged "Binary" (.object [("op", op.toJson), ("left", toJson left),
      ("right", toJson right)]))
  | .unary ty op operand =>
    node ty (.tagged "Unary" (.object [("op", op.toJson), ("operand", toJson operand)]))
  | .convert ty operand => node ty (.tagged "Convert" (toJson operand))
  | .and ty left right => node ty (.tagged "And" (.array [toJson left, toJson right]))
  | .or ty left right => node ty (.tagged "Or" (.array [toJson left, toJson right]))
  | .block ty stmts => node ty (.tagged "Block" (.array (stmtsToJson stmts)))
  | .cond ty test onTrue onFalse =>
    node ty (.tagged "If" (.object [("cond", toJson test), ("then_branch", toJson onTrue),
      ("else_branch", optionToJson onFalse)]))
  | .loop ty test body =>
    node ty (.tagged "While" (.object [("cond", toJson test), ("body", toJson body)]))
  | .call ty f typeArgs args =>
    node ty (callForm (.tagged "Function" f.toJson) typeArgs (argsToJson args))
  | .invoke ty receiver method typeArgs args =>
    node ty (callForm
      (.tagged "Method" (.object [("receiver", toJson receiver), ("method", method.toJson)]))
      typeArgs (argsToJson args))
  | .invokeSelf ty method typeArgs args =>
    node ty (callForm (.tagged "ImplicitMethod" method.toJson) typeArgs (argsToJson args))
  | .new ty cls constructor args =>
    node ty (.tagged "New" (.object [("class", cls.toJson),
      ("constructor", constructor.toJson), ("args", .array (argsToJson args))]))
  | .functionValue ty f => node ty (.tagged "FunctionValue" f.toJson)
  | .throw ty operand => node ty (.tagged "Throw" (toJson operand))
  | .ret ty value => node ty (.tagged "Return" (optionToJson value))
  | .attempt ty body clauses cleanup =>
    node ty (.tagged "Try" (.object [("body", toJson body),
      ("catches", .array (clausesToJson clauses)), ("finally", optionToJson cleanup)]))
def optionToJson : Option Expr → Json
  | none => .null
  | some e => toJson e
def argsToJson : List Expr → List Json
  | [] => []
  | e :: rest => toJson e :: argsToJson rest
def stmtsToJson : List Stmt → List Json
  | [] => []
  | s :: rest => stmtToJson s :: stmtsToJson rest
def stmtToJson : Stmt → Json
  | .expr e => .tagged "Expr" (toJson e)
  | .declare defn init =>
    .tagged "Var" (.object [("defn", defn.toJson), ("init", optionToJson init)])
  | .function f => .tagged "Function" f.toJson
def clausesToJson : List Clause → List Json
  | [] => []
  | c :: rest => clauseToJson c :: clausesToJson rest
def clauseToJson : Clause → Json
  | .mk binding guard body =>
    .object [("binding", .ofOption Ref.toJson binding), ("guard", .ofOption Ref.toJson guard),
      ("body", toJson body)]
end

/-- A call, once its callee has been read. -/
def readCall (read : Json → Option Expr) (ty : Ty) (callee : Json) (typeArgs : List Ty)
    (args : List Expr) : Option Expr :=
  match callee.variant? with
  | some ("Function", some f) => do pure (.call ty (← Ref.ofJson? f) typeArgs args)
  | some ("ImplicitMethod", some f) => do pure (.invokeSelf ty (← Ref.ofJson? f) typeArgs args)
  | some ("Method", some payload) => do
    let [receiver, method] ← payload.fields? ["receiver", "method"] | none
    let receiver ← Json.need read receiver
    let method ← Json.need Ref.ofJson? method
    pure (.invoke ty receiver method typeArgs args)
  | _ => none

def readStmt (read : Json → Option Expr) (j : Json) : Option Stmt :=
  match j.variant? with
  | some ("Expr", some e) => (read e).map .expr
  | some ("Var", some payload) => do
    let [defn, init] ← payload.fields? ["defn", "init"] | none
    pure (.declare (← Json.need Ref.ofJson? defn) (← Json.maybe read init))
  | some ("Function", some f) => (Ref.ofJson? f).map .function
  | _ => none

def readClause (read : Json → Option Expr) (j : Json) : Option Clause := do
  let [binding, guard, body] ← j.fields? ["binding", "guard", "body"] | none
  let binding ← Json.maybe Ref.ofJson? binding
  let guard ← Json.maybe Ref.ofJson? guard
  pure (.mk binding guard (← Json.need read body))

/-- A node of the given type and form, with `read` for the expressions in it. -/
def readForm (read : Json → Option Expr) (ty : Ty) (j : Json) : Option Expr :=
  match j.variant? with
  | some ("Literal", some v) => (Literal.ofJson? v).map (.literal ty)
  | some ("Variable", some d) => (Ref.ofJson? d).map (.variable ty)
  | some ("Field", some payload) => do
    let [receiver, defn] ← payload.fields? ["receiver", "field"] | none
    pure (.field ty (← Json.need read receiver) (← Json.need Ref.ofJson? defn))
  | some ("Assign", some payload) => do
    let [target, value] ← payload.fields? ["target", "value"] | none
    pure (.assign ty (← Json.need read target) (← Json.need read value))
  | some ("CompoundAssign", some payload) => do
    let [op, target, value] ← payload.fields? ["op", "target", "value"] | none
    pure (.compound ty (← Json.need BinaryOp.ofJson? op) (← Json.need read target)
      (← Json.need read value))
  | some ("InitField", some payload) => do
    let [receiver, defn, value] ← payload.fields? ["receiver", "field", "value"] | none
    pure (.initField ty (← Json.need read receiver) (← Json.need Ref.ofJson? defn)
      (← Json.need read value))
  | some ("Binary", some payload) => do
    let [op, left, right] ← payload.fields? ["op", "left", "right"] | none
    pure (.binary ty (← Json.need BinaryOp.ofJson? op) (← Json.need read left)
      (← Json.need read right))
  | some ("Unary", some payload) => do
    let [op, operand] ← payload.fields? ["op", "operand"] | none
    pure (.unary ty (← Json.need UnaryOp.ofJson? op) (← Json.need read operand))
  | some ("Convert", some e) => (read e).map (.convert ty)
  | some ("And", some payload) => do
    let (left, right) ← payload.pair? read read
    pure (.and ty left right)
  | some ("Or", some payload) => do
    let (left, right) ← payload.pair? read read
    pure (.or ty left right)
  | some ("Block", some stmts) => (stmts.list? (readStmt read)).map (.block ty)
  | some ("If", some payload) => do
    let [test, onTrue, onFalse] ← payload.fields? ["cond", "then_branch", "else_branch"] | none
    pure (.cond ty (← Json.need read test) (← Json.need read onTrue)
      (← Json.maybe read onFalse))
  | some ("While", some payload) => do
    let [test, body] ← payload.fields? ["cond", "body"] | none
    pure (.loop ty (← Json.need read test) (← Json.need read body))
  | some ("Call", some payload) => do
    let [callee, typeArgs, args] ← payload.fields? ["callee", "type_args", "args"] | none
    let typeArgs ← Json.need (Json.list? Ty.ofJson?) typeArgs
    let args ← Json.need (Json.list? read) args
    readCall read ty (← callee) typeArgs args
  | some ("New", some payload) => do
    let [cls, constructor, args] ← payload.fields? ["class", "constructor", "args"] | none
    pure (.new ty (← Json.need Ref.ofJson? cls) (← Json.need Ref.ofJson? constructor)
      (← Json.need (Json.list? read) args))
  | some ("FunctionValue", some f) => (Ref.ofJson? f).map (.functionValue ty)
  | some ("Throw", some e) => (read e).map (.throw ty)
  | some ("Return", some value) => (Json.maybe read (some value)).map (.ret ty)
  | some ("Try", some payload) => do
    let [body, clauses, cleanup] ← payload.fields? ["body", "catches", "finally"] | none
    pure (.attempt ty (← Json.need read body)
      (← Json.need (Json.list? (readClause read)) clauses) (← Json.maybe read cleanup))
  | _ => match j.plainVariant? with
    | some "Uninitialized" => some (.uninitialized ty)
    | some "This" => some (.self ty)
    | _ => none

/-- Reads an expression of at most the given nesting. -/
def readWithin : Nat → Json → Option Expr
  | 0, _ => none
  | depth + 1, j => do
    let [form, ty] ← j.fields? ["kind", "ty"] | none
    readForm (readWithin depth) (← Json.need Ty.ofJson? ty) (← form)

def ofJson? (j : Json) : Option Expr := readWithin (j.depth + 1) j

end Expr

def Stmt.toJson (s : Stmt) : Json := Expr.stmtToJson s

def Stmt.ofJson? (j : Json) : Option Stmt := Expr.readStmt Expr.ofJson? j

def Clause.ofJson? (j : Json) : Option Clause := Expr.readClause Expr.ofJson? j

end StackBackend
