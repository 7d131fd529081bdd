import StackBackend.Stored.Inst
import StackBackend.Json.Reader
import StackBackend.Json.Writer
import StackBackend.Program.Basic

/-! Stored form of whole programs, and the text files they are kept in. -/

namespace StackBackend

namespace ScopeKind

def toJson : ScopeKind → Json
  | .global => .string "Global"
  | .ofClass c => .tagged "Class" c.toJson
  | .function f => .tagged "Function" f.toJson
  | .block => .string "Block"

def ofJson? (j : Json) : Option ScopeKind :=
  match j.variant? with
  | some ("Class", some c) => (Ref.ofJson? c).map .ofClass
  | some ("Function", some f) => (Ref.ofJson? f).map .function
  | _ => match j.plainVariant? with
    | some "Global" => some .global
    | some "Block" => some .block
    | _ => none

end ScopeKind

namespace NameTable

def toJson (t : NameTable) : Json := .object (t.entries.map fun (name, d) => (name, d.toJson))

def readPair (p : String × Json) : Option (String × DefnId) := do pure (p.1, ← Ref.ofJson? p.2)

def ofJson? : Json → Option NameTable
  | .object members => (members.mapM readPair).map NameTable.ofList
  | _ => none

end NameTable

namespace Scope

def toJson (s : Scope) : Json :=
  .object [("id", s.id.toJson), ("parent", .ofOption Ref.toJson s.parent),
    ("kind", s.kind.toJson), ("names", s.names.toJson)]

def ofJson? (j : Json) : Option Scope := do
  let [id, parent, kind, names] ← j.fields? ["id", "parent", "kind", "names"] | none
  let id ← Json.need Ref.ofJson? id
  let parent ← Json.maybe Ref.ofJson? parent
  let kind ← Json.need ScopeKind.ofJson? kind
  pure ⟨id, parent, kind, ← Json.need NameTable.ofJson? names⟩

end Scope

namespace DefnKind

def toJson : DefnKind → Json
  | .parameter => .string "Parameter"
  | .localVar => .string "Local"
  | .field c => .tagged "Field" c.toJson
  | .global index => .tagged "Global" (.ofNat index)

def ofJson? (j : Json) : Option DefnKind :=
  match j.variant? with
  | some ("Field", some c) => (Ref.ofJson? c).map .field
  | some ("Global", some index) => index.word?.map .global
  | _ => match j.plainVariant? with
    | some "Parameter" => some .parameter
    | some "Local" => some .localVar
    | _ => none

end DefnKind

namespace Definition

def toJson (d : Definition) : Json :=
  .object [("id", d.id.toJson), ("name", .string d.name), ("kind", d.kind.toJson),
    ("ty", d.ty.toJson), ("mutable", .bool d.isMutable), ("scope", d.scope.toJson)]

def ofJson? (j : Json) : Option Definition := do
  let [id, name, kind, ty, isMutable, scope] ←
    j.fields? ["id", "name", "kind", "ty", "mutable", "scope"] | none
  let id ← Json.need Ref.ofJson? id
  let name ← Json.need Json.string? name
  let kind ← Json.need DefnKind.ofJson? kind
  let ty ← Json.need Ty.ofJson? ty
  let isMutable ← Json.need Json.bool? isMutable
  pure ⟨id, name, kind, ty, isMutable, ← Json.need Ref.ofJson? scope⟩

end Definition

/-- A definition with an optional initial value, as fields and globals have it. -/
def initializedToJson (defn : DefnId) (init : Option Expr) : Json :=
  .object [("defn", defn.toJson), ("init", .ofOption Expr.toJson init)]

def initializedOfJson? (j : Json) : Option (DefnId × Option Expr) := do
  let [defn, init] ← j.fields? ["defn", "init"] | none
  let defn ← Json.need Ref.ofJson? defn
  pure (defn, ← Json.maybe Expr.ofJson? init)

namespace FieldDecl

def toJson (f : FieldDecl) : Json := initializedToJson f.defn f.init

def ofJson? (j : Json) : Option FieldDecl :=
  (initializedOfJson? j).map fun (defn, init) => ⟨defn, init⟩

end FieldDecl

namespace GlobalDecl

def toJson (g : GlobalDecl) : Json := initializedToJson g.defn g.init

def ofJson? (j : Json) : Option GlobalDecl :=
  (initializedOfJson? j).map fun (defn, init) => ⟨defn, init⟩

end GlobalDecl

namespace ClassOrigin

def toJson : ClassOrigin → Json
  | .declared => .string "Declared"
  | .builtin => .string "Builtin"
  | .context scope => .tagged "Context" (.object [("scope", scope.toJson)])
  | .closure f => .tagged "Closure" (.object [("function", f.toJson)])

def ofJson? (j : Json) : Option ClassOrigin :=
  match j.variant? with
  | some ("Context", some payload) => do
    let [scope] ← payload.fields? ["scope"] | none
    (Json.need Ref.ofJson? scope).map .context
  | some ("Closure", some payload) => do
    let [f] ← payload.fields? ["function"] | none
    (Json.need Ref.ofJson? f).map .closure
  | _ => match j.plainVariant? with
    | some "Declared" => some .declared
    | some "Builtin" => some .builtin
    | _ => none

end ClassOrigin

namespace FieldSlot

def toJson (s : FieldSlot) : Json :=
  .object [("defn", s.defn.toJson), ("repr", s.storage.toJson)]

def ofJson? (j : Json) : Option FieldSlot := do
  let [defn, storage] ← j.fields? ["defn", "repr"] | none
  pure ⟨← Json.need Ref.ofJson? defn, ← Json.need Storage.ofJson? storage⟩

end FieldSlot

namespace MethodSlot

def toJson (s : MethodSlot) : Json :=
  .object [("function", s.function.toJson), ("repr", .ofOption Storage.toJson s.storage)]

def ofJson? (j : Json) : Option MethodSlot := do
  let [function, storage] ← j.fields? ["function", "repr"] | none
  pure ⟨← Json.need Ref.ofJson? function, ← Json.maybe Storage.ofJson? storage⟩

end MethodSlot

namespace ClassLayout

def toJson (l : ClassLayout) : Json :=
  .object [("fields", .ofList FieldSlot.toJson l.fields),
    ("methods", .ofList MethodSlot.toJson l.methods)]

def ofJson? (j : Json) : Option ClassLayout := do
  let [fields, methods] ← j.fields? ["fields", "methods"] | none
  let fields ← Json.need (Json.list? FieldSlot.ofJson?) fields
  pure ⟨fields, ← Json.need (Json.list? MethodSlot.ofJson?) methods⟩

end ClassLayout

def refs? {table : Table} (j : Json) : Option (List (Ref table)) := j.list? Ref.ofJson?

namespace ClassDecl

def toJson (c : ClassDecl) : Json :=
  .object [("id", c.id.toJson), ("name", .string c.name),
    ("supertype", .ofOption ClassTy.toJson c.supertype),
    ("interfaces", .ofList Ref.toJson c.interfaces),
    ("type_params", .ofList Ref.toJson c.typeParams), ("scope", c.scope.toJson),
    ("fields", .ofList FieldDecl.toJson c.fields), ("methods", .ofList Ref.toJson c.methods),
    ("constructors", .ofList Ref.toJson c.constructors),
    ("initializer", .ofOption Ref.toJson c.initializer), ("origin", c.origin.toJson),
    ("is_final", .bool c.isFinal), ("layout", .ofOption ClassLayout.toJson c.layout)]

def ofJson? (j : Json) : Option ClassDecl := do
  let [id, name, supertype, interfaces, typeParams, scope, fields, methods, constructors,
      initializer, origin, isFinal, layout] ←
    j.fields? ["id", "name", "supertype", "interfaces", "type_params", "scope", "fields",
      "methods", "constructors", "initializer", "origin", "is_final", "layout"] | none
  let id ← Json.need Ref.ofJson? id
  let name ← Json.need Json.string? name
  let supertype ← Json.maybe ClassTy.ofJson? supertype
  let interfaces ← Json.need refs? interfaces
  let typeParams ← Json.need refs? typeParams
  let scope ← Json.need Ref.ofJson? scope
  let fields ← Json.need (Json.list? FieldDecl.ofJson?) fields
  let methods ← Json.need refs? methods
  let constructors ← Json.need refs? constructors
  let initializer ← Json.maybe Ref.ofJson? initializer
  let origin ← Json.need ClassOrigin.ofJson? origin
  let isFinal ← Json.need Json.bool? isFinal
  let layout ← Json.maybe ClassLayout.ofJson? layout
  pure { id, name, supertype, interfaces, typeParams, scope, fields, methods, constructors,
         initializer, origin, isFinal, layout }

end ClassDecl

namespace FunctionKind

def toJson : FunctionKind → Json
  | .global => .string "Global"
  | .method c => .tagged "Method" c.toJson
  | .constructor c => .tagged "Constructor" c.toJson
  | .initializer c => .tagged "Initializer" c.toJson

def ofJson? (j : Json) : Option FunctionKind :=
  match j.variant? with
  | some ("Method", some c) => (Ref.ofJson? c).map .method
  | some ("Constructor", some c) => (Ref.ofJson? c).map .constructor
  | some ("Initializer", some c) => (Ref.ofJson? c).map .initializer
  | _ => match j.plainVariant? with
    | some "Global" => some .global
    | _ => none

end FunctionKind

namespace ChainCall

def callToJson (constructor : FunctionId) (args : List Expr) : Json :=
  .object [("constructor", constructor.toJson), ("args", .ofList Expr.toJson args)]

def callOfJson? (j : Json) : Option (FunctionId × List Expr) := do
  let [constructor, args] ← j.fields? ["constructor", "args"] | none
  let constructor ← Json.need Ref.ofJson? constructor
  pure (constructor, ← Json.need (Json.list? Expr.ofJson?) args)

def toJson : ChainCall → Json
  | .implicit => .string "Default"
  | .super constructor args => .tagged "Super" (callToJson constructor args)
  | .sibling constructor args => .tagged "This" (callToJson constructor args)

def ofJson? (j : Json) : Option ChainCall :=
  match j.variant? with
  | some ("Super", some payload) =>
    (callOfJson? payload).map fun (constructor, args) => .super constructor args
  | some ("This", some payload) =>
    (callOfJson? payload).map fun (constructor, args) => .sibling constructor args
  | _ => match j.plainVariant? with
    | some "Default" => some .implicit
    | _ => none

end ChainCall

namespace Chain

def toJson (c : Chain) : Json :=
  .object [("call", c.call.toJson),
    ("field_params",
      .ofList (fun (param, field) => .array [param.toJson, field.toJson]) c.fieldParams)]

def ofJson? (j : Json) : Option Chain := do
  let [call, fieldParams] ← j.fields? ["call", "field_params"] | none
  let call ← Json.need ChainCall.ofJson? call
  pure ⟨call, ← Json.need (Json.list? (Json.pair? Ref.ofJson? Ref.ofJson?)) fieldParams⟩

end Chain

namespace FunctionDecl

def toJson (f : FunctionDecl) : Json :=
  .object [("id", f.id.toJson), ("name", .string f.name), ("kind", f.kind.toJson),
    ("scope", f.scope.toJson), ("return_type", f.returnTy.toJson),
    ("type_params", .ofList Ref.toJson f.typeParams), ("params", .ofList Ref.toJson f.params),
    ("body", .ofOption Expr.toJson f.body), ("chain", .ofOption Chain.toJson f.chain),
    ("is_builtin", .bool f.isBuiltin), ("is_final", .bool f.isFinal),
    ("lowered", .ofOption Body.toJson f.lowered)]

def ofJson? (j : Json) : Option FunctionDecl := do
  let [id, name, kind, scope, returnTy, typeParams, params, body, chain, isBuiltin, isFinal,
      lowered] ←
    j.fields? ["id", "name", "kind", "scope", "return_type", "type_params", "params", "body",
      "chain", "is_builtin", "is_final", "lowered"] | none
  let id ← Json.need Ref.ofJson? id
  let name ← Json.need Json.string? name
  let kind ← Json.need FunctionKind.ofJson? kind
  let scope ← Json.need Ref.ofJson? scope
  let returnTy ← Json.need Ty.ofJson? returnTy
  let typeParams ← Json.need refs? typeParams
  let params ← Json.need refs? params
  let body ← Json.maybe Expr.ofJson? body
  let chain ← Json.maybe Chain.ofJson? chain
  let isBuiltin ← Json.need Json.bool? isBuiltin
  let isFinal ← Json.need Json.bool? isFinal
  let lowered ← Json.maybe Body.ofJson? lowered
  pure { id, name, kind, scope, returnTy, typeParams, params, body, chain, isBuiltin, isFinal,
         lowered }

end FunctionDecl

namespace TypeParameter

def toJson (t : TypeParameter) : Json := .object [("id", t.id.toJson), ("name", .string t.name)]

def ofJson? (j : Json) : Option TypeParameter := do
  let [id, name] ← j.fields? ["id", "name"] | none
  pure ⟨← Json.need Ref.ofJson? id, ← Json.need Json.string? name⟩

end TypeParameter

namespace Program

def toJson (p : Program) : Json :=
  .object [("scopes", .ofList Scope.toJson p.scopes.toList),
    ("definitions", .ofList Definition.toJson p.definitions.toList),
    ("classes", .ofList ClassDecl.toJson p.classes.toList),
    ("functions", .ofList FunctionDecl.toJson p.functions.toList),
    ("type_params", .ofList TypeParameter.toJson p.typeParams.toList),
    ("globals", .ofList GlobalDecl.toJson p.globals.toList),
    ("strings", .ofList Json.string p.strings.toList),
    ("init_function", .ofOption Ref.toJson p.initFunction)]

def ofJson? (j : Json) : Option Program := do
  let [scopes, definitions, classes, functions, typeParams, globals, strings, initFunction] ←
    j.fields? ["scopes", "definitions", "classes", "functions", "type_params", "globals",
      "strings", "init_function"] | none
  let scopes ← Json.need (Json.list? Scope.ofJson?) scopes
  let definitions ← Json.need (Json.list? Definition.ofJson?) definitions
  let classes ← Json.need (Json.list? ClassDecl.ofJson?) classes
  let functions ← Json.need (Json.list? FunctionDecl.ofJson?) functions
  let typeParams ← Json.need (Json.list? TypeParameter.ofJson?) typeParams
  let globals ← Json.need (Json.list? GlobalDecl.ofJson?) globals
  let strings ← Json.need (Json.list? Json.string?) strings
  let initFunction ← Json.maybe Ref.ofJson? initFunction
  pure ⟨scopes.toArray, definitions.toArray, classes.toArray, functions.toArray,
    typeParams.toArray, globals.toArray, strings.toArray, initFunction⟩

/-- Containers in a stored file nest at most this deep. -/
def nestingLimit : Nat := 127

/-- The text a program is stored as. -/
def toText (p : Program) : String := p.toJson.pretty

def ofText? (text : String) : Option Program := (Json.parse? nestingLimit text).bind ofJson?

/-- Whether storing a program and reading it back gives the same program; no
answer when what was stored cannot be read. -/
def survivesStorage? (p : Program) : Option Bool :=
  (ofText? p.toText).map fun q => q.toJson.compact = p.toJson.compact

end Program

end StackBackend
