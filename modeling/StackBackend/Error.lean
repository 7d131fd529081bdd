import StackBackend.Inst
import StackBackend.Expr.Basic

/-! What can stop the back end, as causes; `message` is the one place where they
are worded. -/

namespace StackBackend

/-- A body that cannot be lowered, or a lowered body that is malformed. -/
inductive LoweringCause where
  | noBody
  | undefinedBinary (op : BinaryOp) (ty : Ty)
  | undefinedUnary (op : UnaryOp) (ty : Ty)
  | noConversion (source target : Ty)
  | notATypeArgument (ty : Ty)
  | noMethodSlot (method : String)
  | noBuiltinSlot (method : String)
  | notAField (name : String)
  | missingField (field cls : String)
  | fieldReadWithoutReceiver (name : String)
  | fieldWrittenWithoutReceiver (name : String)
  | badAssignmentTarget
  | noClosureClass (function : String)
  | noExplicitReceiver (method : String)
  | noBlocks
  | misnumberedBlock (position number : Nat)
  | earlyTerminator (block : Nat) (inst : Inst)

def quoted (s : String) : String := "`" ++ s ++ "`"

def LoweringCause.message : LoweringCause → String
  | .noBody => "function has no body"
  | .undefinedBinary op ty => "operator " ++ op.name ++ " is not defined on " ++ quoted ty.text
  | .undefinedUnary op ty => "operator " ++ op.name ++ " is not defined on " ++ quoted ty.text
  | .noConversion source target =>
    "cannot convert " ++ quoted source.text ++ " to " ++ quoted target.text
  | .notATypeArgument ty => quoted ty.text ++ " cannot be used as a type argument"
  | .noMethodSlot method => "method " ++ quoted method ++ " has no slot in the receiver's class"
  | .noBuiltinSlot method => "builtin method " ++ quoted method ++ " has no slot"
  | .notAField name => quoted name ++ " is not a field"
  | .missingField field cls => "field " ++ quoted field ++ " is missing from " ++ quoted cls
  | .fieldReadWithoutReceiver name => "field " ++ quoted name ++ " is read without a receiver"
  | .fieldWrittenWithoutReceiver name =>
    "field " ++ quoted name ++ " is written without a receiver"
  | .badAssignmentTarget => "assignment target is neither a variable nor a field"
  | .noClosureClass function =>
    "function " ++ quoted function ++ " is used as a value but has no closure class"
  | .noExplicitReceiver method =>
    "method " ++ quoted method ++ " is called without an explicit receiver"
  | .noBlocks => "lowered body has no blocks"
  | .misnumberedBlock position number =>
    "block at position " ++ toString position ++ " is numbered " ++ toString number
  | .earlyTerminator block inst =>
    "block " ++ toString block ++ " transfers control before its end at " ++ quoted inst.text

inductive CompileError where
  | inheritanceCycle (cls : String)
  | conflictingField (cls field first second : String)
  | incompatibleOverride (cls method : String)
  | duplicateMethod (cls method : String)
  | unresolvedDefinition (function name : String)
  | unreachableContext (function scope name : String)
  | unterminatedBlock (function : String) (block : Nat)
  | invalidBranchTarget (function : String) (block target : Nat)
  | invalidOperand (function : String) (block : Nat) (inst : Inst)
  | unreachableBlock (function : String) (block : Nat)
  | layoutNotFinalized (cls : String)
  | missingDefaultConstructor (cls : String)
  | tooManyLocals (function : String) (limit : Nat)
  | invalidLowering (function : String) (cause : LoweringCause)

namespace CompileError

def inFunction (function text : String) : String :=
  "Function " ++ quoted function ++ ": " ++ text

def inBlock (function : String) (block : Nat) (text : String) : String :=
  inFunction function ("block " ++ toString block ++ " " ++ text)

def inClass (cls text : String) : String := "Class " ++ quoted cls ++ text

def message : CompileError → String
  | .inheritanceCycle cls => inClass cls " inherits from itself"
  | .conflictingField cls field first second =>
    inClass cls (": field " ++ quoted field ++ " is declared by both " ++ quoted first ++
      " and " ++ quoted second)
  | .incompatibleOverride cls method =>
    inClass cls (": method " ++ quoted method ++ " is incompatible with the inherited " ++
      quoted method)
  | .duplicateMethod cls method =>
    inClass cls (": method " ++ quoted method ++ " is declared more than once")
  | .unresolvedDefinition function name =>
    inFunction function ("reference to unresolved definition " ++ quoted name)
  | .unreachableContext function scope name =>
    inFunction function ("no context chain reaches scope " ++ scope ++ " for " ++ quoted name)
  | .unterminatedBlock function block => inBlock function block "has no terminator"
  | .invalidBranchTarget function block target =>
    inBlock function block ("branches to missing block " ++ toString target)
  | .invalidOperand function block inst =>
    inBlock function block ("has an out-of-range operand in " ++ quoted inst.text)
  | .unreachableBlock function block => inBlock function block "is unreachable"
  | .layoutNotFinalized cls => inClass cls " has not been flattened"
  | .missingDefaultConstructor cls => inClass cls " has no no-argument constructor"
  | .tooManyLocals function limit =>
    inFunction function ("too many local variables (max " ++ toString limit ++ ")")
  | .invalidLowering function cause => inFunction function cause.message

/-- Found while flattening classes, before any code is generated. -/
def isLayoutError : CompileError → Bool
  | .inheritanceCycle _ | .conflictingField .. | .incompatibleOverride ..
  | .duplicateMethod .. => true
  | _ => false

/-- Reports a defect of an earlier stage rather than of the program's classes or
its size. -/
def isInvariantViolation (e : CompileError) : Bool :=
  !e.isLayoutError && match e with
    | .tooManyLocals .. => false
    | _ => true

end CompileError

/-- Why a computation over a program gives no result. -/
inductive Fault where
  | rejected (error : CompileError)
  /-- A reference past the end of its table was followed. -/
  | dangling (table : Table) (index : Nat)

abbrev Checked := Except Fault

def reject {α : Type} (error : CompileError) : Checked α := .error (.rejected error)

end StackBackend
