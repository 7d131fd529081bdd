import StackBackend.Program.Basic
import StackBackend.Text.Quoted

/-! Listings of lowered programs for human readers. -/

namespace StackBackend

def listLines (lines : List String) : String := String.join (lines.map (· ++ "\n"))

def Block.listing (b : Block) : String :=
  listLines (("  block " ++ toString b.id.index ++ ":") ::
    b.instructions.map fun inst => "    " ++ inst.text)

def LocalSlot.label (s : LocalSlot) : String := s.name ++ "@" ++ toString s.slot

def Body.listing (b : Body) : String :=
  let locals := ", ".intercalate (b.locals.map LocalSlot.label)
  (if b.locals.isEmpty then "" else listLines ["  ; locals: " ++ locals]) ++
    String.join (b.blocks.map Block.listing)

namespace Program

mutual
/-- A type with the names of its classes and parameters. -/
def tyName (p : Program) : Ty → Checked String
  | .object c args nullable => do
    let name := (← p.classAt c).name
    let args ← tyNames p args
    pure (name ++ (if args.isEmpty then "" else "[" ++ ", ".intercalate args ++ "]") ++
      if nullable then "?" else "")
  | .variable t => do pure (← p.typeParamAt t).name
  | ty => pure ty.text
def tyNames (p : Program) : List Ty → Checked (List String)
  | [] => pure []
  | ty :: rest => do
    let name ← tyName p ty
    pure (name :: (← tyNames p rest))
end

def listField (p : Program) (index : Nat) (slot : FieldSlot) : Checked String := do
  let defn ← p.defnAt slot.defn
  pure (";   field " ++ toString index ++ " " ++ defn.name ++ ": " ++ (← p.tyName defn.ty) ++
    " (" ++ slot.storage.text ++ ")")

def listMethod (p : Program) (index : Nat) (slot : MethodSlot) : Checked String := do
  let f ← p.functionAt slot.function
  pure (";   method " ++ toString index ++ " " ++ f.name ++ " -> fn " ++ toString f.id.index)

/-- Applies a numbering function to each entry in turn. -/
def numbered {α : Type} (f : Nat → α → Checked String) : Nat → List α → Checked (List String)
  | _, [] => pure []
  | n, a :: rest => do
    let line ← f n a
    pure (line :: (← numbered f (n + 1) rest))

def listClass (p : Program) (c : ClassDecl) : Checked String := do
  let base ← match c.supertype with
    | some st => do pure (" : " ++ (← p.tyName st.toTy))
    | none => pure ""
  let layout := c.layout.getD .empty
  let fields ← numbered p.listField 0 layout.fields
  let methods ← numbered p.listMethod 0 layout.methods
  pure (listLines (("; class " ++ toString c.id.index ++ " " ++ c.name ++ base) ::
    (fields ++ methods)))

def listParam (p : Program) (d : DefnId) : Checked String := do
  let defn ← p.defnAt d
  pure (defn.name ++ ": " ++ (← p.tyName defn.ty))

def signature (p : Program) (f : FunctionDecl) : Checked String := do
  let params ← f.params.mapM p.listParam
  let names ← f.typeParams.mapM fun t => do pure (← p.typeParamAt t).name
  let result ← p.tyName f.returnTy
  pure ("function " ++ toString f.id.index ++ " " ++ f.name ++
    (if names.isEmpty then "" else "[" ++ ", ".intercalate names ++ "]") ++
    "(" ++ ", ".intercalate params ++ ") -> " ++ result)

def listFunction (p : Program) (f : FunctionDecl) : Checked String :=
  match f.lowered with
  | none => pure ""
  | some body => do
    pure ((← p.signature f) ++ " \x7b\n" ++ body.listing ++ "\x7d\n\n")

def listStrings (p : Program) : Checked String := do
  if p.strings.isEmpty then pure ""
  else
    let lines ← numbered
      (fun i s => pure (";   " ++ toString i ++ " " ++ Text.quote s)) 0 p.strings.toList
    pure (listLines ("; strings" :: lines))

def listing (p : Program) : Checked String := do
  let classes ← p.classes.toList.mapM p.listClass
  let functions ← p.functions.toList.mapM p.listFunction
  let strings ← p.listStrings
  pure (String.join classes ++ "\n" ++ String.join functions ++ strings)

end Program

end StackBackend
