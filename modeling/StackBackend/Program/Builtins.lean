import StackBackend.Program.Build

/-! Classes and functions every program starts with. They are installed first, so
their positions are fixed. -/

namespace StackBackend

/-- The method that gives the runtime type of an object. -/
def typeofMethod : FunctionId := ⟨1⟩

def typeConstructor : FunctionId := ⟨6⟩

def isSubtypeOfMethod : FunctionId := ⟨7⟩

namespace Pass

def markBuiltin (f : FunctionId) : Pass Unit :=
  modifyFunction f fun function => { function with isBuiltin := true }

def addBuiltinConstructor (c : ClassId) : Pass FunctionId := do
  let id ← addConstructor c
  markBuiltin id
  pure id

/-- Parameters without a name of their own are numbered. -/
def addNumberedParams (f : FunctionId) : Nat → List Ty → Pass Unit
  | _, [] => pure ()
  | n, ty :: rest => do
    let _ ← addParam f ("arg" ++ toString n) ty false
    addNumberedParams f (n + 1) rest

def addBuiltinMethod (c : ClassId) (name : String) (returnTy : Ty) (params : List Ty) :
    Pass Unit := do
  let id ← addMethod c name returnTy
  addNumberedParams id 0 params
  markBuiltin id

def installBuiltins : Pass Unit := do
  let _ ← addScope none .global
  let root : ClassTy := ⟨objectClass, [], false⟩
  let object ← pushClass "Object" none .builtin
  let string ← pushClass "String" (some root) .builtin
  let type ← pushClass "Type" (some root) .builtin
  let exception ← pushClass "Exception" (some root) .builtin
  let stringTy := Ty.ofClass string
  let _ ← addBuiltinConstructor object
  addBuiltinMethod object "typeof" (.ofClass type) []
  addBuiltinMethod object "to-string" stringTy []
  addBuiltinMethod string "+" stringTy [stringTy]
  addBuiltinMethod string "==" .boolean [stringTy]
  addBuiltinMethod string "to-string" stringTy []
  let constructor ← addBuiltinConstructor type
  let _ ← addParam constructor "class" (.ofClass object) false
  addBuiltinMethod type "is-subtype-of" .boolean [.ofClass type]
  let _ ← addBuiltinConstructor exception
  let print ← addFunction "print" .unit
  let _ ← addParam print "message" stringTy false
  markBuiltin print

end Pass

/-- The program that holds nothing but the builtins. -/
def Program.initial : Program :=
  match Pass.installBuiltins Program.empty with
  | .ok _ p => p
  | .error _ p => p

end StackBackend
