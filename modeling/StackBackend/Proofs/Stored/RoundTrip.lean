import StackBackend.Stored.Program
import StackBackend.Proofs.Json.ReadTrees
import StackBackend.Proofs.Stored.Code

/-! Whole programs survive storage. Main statement: reading the text of a program
gives exactly the program, if its positions fit the stored form, it has no
constants with a fraction, and its text nests no deeper than the reader goes. -/

namespace StackBackend

open List

open Json (Survives)

/-! ### Scopes and definitions -/

namespace ScopeKind

def Fits : ScopeKind → Prop
  | .ofClass c => c.Fits
  | .function f => f.Fits
  | .global | .block => True

theorem Fits.survives {k : ScopeKind} (h : k.Fits) : Survives toJson ofJson? k := by
  cases k with
  | global | block => exact .of_plain rfl rfl
  | ofClass c => exact .of_payload (Ref.Fits.survives h) rfl (fun _ => rfl) rfl
  | function f => exact .of_payload (Ref.Fits.survives h) rfl (fun _ => rfl) rfl

end ScopeKind

namespace NameTable

def Fits (t : NameTable) : Prop := ∀ entry ∈ t.entries, entry.2.Fits

theorem insertEntry_of_lt {name : String} {d : DefnId} {entries : List (String × DefnId)}
    (h : ∀ entry ∈ entries, entry.1 < name) :
    insertEntry name d entries = entries ++ [(name, d)] := by
  induction entries with
  | nil => rfl
  | cons entry rest ih =>
    have hlt : entry.1 < name := h entry (by simp)
    have hne : name ≠ entry.1 := fun heq => String.lt_irrefl name (by rwa [← heq] at hlt)
    rw [insertEntry, if_neg (String.lt_asymm hlt), if_neg hne, ih fun e he => h e (by simp [he]),
      cons_append]

theorem entries_foldl_insert {rest : List (String × DefnId)} {t : NameTable}
    (h : (t.entries ++ rest).Pairwise fun a b => a.1 < b.1) :
    (rest.foldl (fun t p => t.insert p.1 p.2) t).entries = t.entries ++ rest := by
  induction rest generalizing t with
  | nil => simp
  | cons entry rest ih =>
    have hlt : ∀ e ∈ t.entries, e.1 < entry.1 := fun e he =>
      (pairwise_append.mp h).2.2 e he entry (by simp)
    have hinsert : (t.insert entry.1 entry.2).entries = t.entries ++ [entry] :=
      insertEntry_of_lt hlt
    rw [foldl_cons, ih (by simpa [hinsert] using h), hinsert]
    simp

theorem ofList_entries (t : NameTable) : ofList t.entries = t := by
  have h : (ofList t.entries).entries = t.entries :=
    @entries_foldl_insert t.entries empty t.sorted
  cases t
  cases hlist : ofList _
  simp_all

theorem Fits.readPairs {t : NameTable} (h : t.Fits) :
    (t.entries.map fun (name, d) => (name, d.toJson)).mapM readPair = some t.entries :=
  Json.mapM_map_eq_some fun entry hentry => by simp [readPair, (h entry hentry).survives.read]

theorem Fits.survives {t : NameTable} (h : t.Fits) : Survives toJson ofJson? t := by
  refine .of_object rfl (Json.writableMembers_iff.mpr fun m hm => ?_) ?_
  · obtain ⟨entry, hentry, rfl⟩ := mem_map.mp hm
    exact (h entry hentry).survives.writable
  · rw [ofJson?, h.readPairs, Option.map_some, ofList_entries]

end NameTable

namespace Scope

structure Fits (s : Scope) : Prop where
  id : s.id.Fits
  parent : ∀ parent ∈ s.parent, parent.Fits
  kind : s.kind.Fits
  names : s.names.Fits

theorem Fits.survives {s : Scope} (h : s.Fits) : Survives toJson ofJson? s := by
  have hparent := Ref.survives_option h.parent
  exact .of_object rfl ⟨h.id.survives.writable, Survives.writable_option hparent,
    h.kind.survives.writable, h.names.survives.writable, trivial⟩
    (Json.read₄ h.id.survives.read (Survives.maybe_option hparent) h.kind.survives.read h.names.survives.read rfl)

end Scope

namespace DefnKind

def Fits : DefnKind → Prop
  | .field c => c.Fits
  | .global index => IsWord index
  | .parameter | .localVar => True

theorem Fits.survives {k : DefnKind} (h : k.Fits) : Survives toJson ofJson? k := by
  cases k with
  | parameter | localVar => exact .of_plain rfl rfl
  | field c => exact .of_payload (Ref.Fits.survives h) rfl (fun _ => rfl) rfl
  | global index => exact .of_payload (IsWord.survives h) rfl (fun _ => rfl) rfl

end DefnKind

namespace Definition

structure Fits (d : Definition) : Prop where
  id : d.id.Fits
  kind : d.kind.Fits
  ty : d.ty.Fits
  scope : d.scope.Fits

theorem Fits.survives {d : Definition} (h : d.Fits) : Survives toJson ofJson? d := by
  exact .of_object rfl ⟨h.id.survives.writable, trivial, h.kind.survives.writable,
    h.ty.survives.writable, trivial, h.scope.survives.writable, trivial⟩
    (Json.read₄ h.id.survives.read h.kind.survives.read h.ty.survives.read h.scope.survives.read rfl)

end Definition

/-! ### Fields, globals and classes -/

def InitializedFits (defn : DefnId) (init : Option Expr) : Prop :=
  defn.Fits ∧ ∀ e ∈ init, e.Fits

theorem InitializedFits.survives {defn : DefnId} {init : Option Expr}
    (h : InitializedFits defn init) :
    Survives (fun p : DefnId × Option Expr => initializedToJson p.1 p.2) initializedOfJson?
      (defn, init) := by
  have hinit : ∀ e ∈ init, Survives Expr.toJson Expr.ofJson? e := fun e he => (h.2 e he).survives
  exact .of_object rfl ⟨h.1.survives.writable, Survives.writable_option hinit, trivial⟩
    (Json.read₂ h.1.survives.read (Survives.maybe_option hinit) rfl)

namespace FieldDecl

def Fits (f : FieldDecl) : Prop := InitializedFits f.defn f.init

theorem Fits.survives {f : FieldDecl} (h : f.Fits) : Survives toJson ofJson? f where
  writable := (InitializedFits.survives h).writable
  not_null := (InitializedFits.survives h).not_null
  read := by
    have hread : initializedOfJson? f.toJson = some (f.defn, f.init) :=
      (InitializedFits.survives h).read
    rw [ofJson?, hread, Option.map_some]

end FieldDecl

namespace GlobalDecl

def Fits (g : GlobalDecl) : Prop := InitializedFits g.defn g.init

theorem Fits.survives {g : GlobalDecl} (h : g.Fits) : Survives toJson ofJson? g where
  writable := (InitializedFits.survives h).writable
  not_null := (InitializedFits.survives h).not_null
  read := by
    have hread : initializedOfJson? g.toJson = some (g.defn, g.init) :=
      (InitializedFits.survives h).read
    rw [ofJson?, hread, Option.map_some]

end GlobalDecl

namespace ClassOrigin

def Fits : ClassOrigin → Prop
  | .context scope => scope.Fits
  | .closure f => f.Fits
  | .declared | .builtin => True

theorem Fits.survives {o : ClassOrigin} (h : o.Fits) : Survives toJson ofJson? o := by
  cases o with
  | declared | builtin => exact .of_plain rfl rfl
  | context r | closure r =>
    have hr : r.Fits := h
    refine .of_tagged rfl ⟨hr.survives.writable, trivial⟩ ?_
    simp only [ofJson?, Json.tagged, Json.variant?]
    rw [Json.fields?_object (by rfl) (by decide)]
    simp only [List.map, Json.need, Option.bind_eq_bind, Option.bind_some, Option.map_some,
      hr.survives.read]

end ClassOrigin

namespace FieldSlot

theorem survives {s : FieldSlot} (h : s.defn.Fits) : Survives toJson ofJson? s := by
  exact .of_object rfl ⟨h.survives.writable, s.storage.survives.writable, trivial⟩
    (Json.read₂ h.survives.read s.storage.survives.read rfl)

end FieldSlot

namespace MethodSlot

theorem survives {s : MethodSlot} (h : s.function.Fits) : Survives toJson ofJson? s := by
  have hstorage : ∀ storage ∈ s.storage, Survives Storage.toJson Storage.ofJson? storage :=
    fun storage _ => storage.survives
  exact .of_object rfl ⟨h.survives.writable, Survives.writable_option hstorage, trivial⟩
    (Json.read₂ h.survives.read (Survives.maybe_option hstorage) rfl)

end MethodSlot

namespace ClassLayout

structure Fits (l : ClassLayout) : Prop where
  fields : ∀ s ∈ l.fields, s.defn.Fits
  methods : ∀ s ∈ l.methods, s.function.Fits

theorem Fits.survives {l : ClassLayout} (h : l.Fits) : Survives toJson ofJson? l := by
  have hfields : Survives _ _ l.fields := .list fun s hs => FieldSlot.survives (h.fields s hs)
  have hmethods : Survives _ _ l.methods := .list fun s hs => MethodSlot.survives (h.methods s hs)
  exact .of_object rfl ⟨hfields.writable, hmethods.writable, trivial⟩
    (Json.read₂ hfields.read hmethods.read rfl)

end ClassLayout

theorem survives_refs {table : Table} {refs : List (Ref table)} (h : ∀ r ∈ refs, r.Fits) :
    Survives (.ofList Ref.toJson) refs? refs :=
  Ref.survives_list h

namespace ClassDecl

structure Fits (c : ClassDecl) : Prop where
  id : c.id.Fits
  supertype : ∀ ty ∈ c.supertype, ty.Fits
  interfaces : ∀ i ∈ c.interfaces, i.Fits
  typeParams : ∀ t ∈ c.typeParams, t.Fits
  scope : c.scope.Fits
  fields : ∀ f ∈ c.fields, f.Fits
  methods : ∀ m ∈ c.methods, m.Fits
  constructors : ∀ f ∈ c.constructors, f.Fits
  initializer : ∀ f ∈ c.initializer, f.Fits
  origin : c.origin.Fits
  layout : ∀ l ∈ c.layout, l.Fits

theorem Fits.survives {c : ClassDecl} (h : c.Fits) : Survives toJson ofJson? c := by
  have hsuper : ∀ ty ∈ c.supertype, Survives ClassTy.toJson ClassTy.ofJson? ty :=
    fun ty hty => (h.supertype ty hty).survives
  have hinterfaces := survives_refs h.interfaces
  have htypeParams := survives_refs h.typeParams
  have hfields : Survives _ _ c.fields := .list fun f hf => (h.fields f hf).survives
  have hmethods := survives_refs h.methods
  have hconstructors := survives_refs h.constructors
  have hinitializer := Ref.survives_option h.initializer
  have hlayout : ∀ l ∈ c.layout, Survives ClassLayout.toJson ClassLayout.ofJson? l :=
    fun l hl => (h.layout l hl).survives
  refine .of_object rfl ⟨h.id.survives.writable, trivial, Survives.writable_option hsuper,
    hinterfaces.writable, htypeParams.writable, h.scope.survives.writable, hfields.writable,
    hmethods.writable, hconstructors.writable, Survives.writable_option hinitializer,
    h.origin.survives.writable, trivial, Survives.writable_option hlayout, trivial⟩ ?_
  rw [ofJson?, Json.fields?_object (by rfl) (by decide), Option.bind_eq_bind, Option.bind_some]
  simp only [List.map]
  rw [h.id.survives.need_bind, (Survives.string _).need_bind, Survives.maybe_bind hsuper,
    hinterfaces.need_bind, htypeParams.need_bind, h.scope.survives.need_bind, hfields.need_bind,
    hmethods.need_bind, hconstructors.need_bind, Survives.maybe_bind hinitializer,
    h.origin.survives.need_bind, (Survives.bool _).need_bind, Survives.maybe_bind hlayout,
    Option.pure_def]

end ClassDecl

/-! ### Functions -/

namespace FunctionKind

def Fits (k : FunctionKind) : Prop := ∀ c ∈ k.owner?, c.Fits

theorem Fits.survives {k : FunctionKind} (h : k.Fits) : Survives toJson ofJson? k := by
  cases k with
  | global => exact .of_plain rfl rfl
  | method c => exact .of_payload (h c rfl).survives rfl (fun _ => rfl) rfl
  | constructor c => exact .of_payload (h c rfl).survives rfl (fun _ => rfl) rfl
  | initializer c => exact .of_payload (h c rfl).survives rfl (fun _ => rfl) rfl

end FunctionKind

namespace ChainCall

def Fits : ChainCall → Prop
  | .implicit => True
  | .super constructor args | .sibling constructor args =>
    constructor.Fits ∧ ∀ e ∈ args, e.Fits

theorem survives_call {constructor : FunctionId} {args : List Expr}
    (h : constructor.Fits ∧ ∀ e ∈ args, e.Fits) :
    Survives (fun p : FunctionId × List Expr => callToJson p.1 p.2) callOfJson?
      (constructor, args) := by
  have hargs : Survives _ _ args := .list fun e he => (h.2 e he).survives
  exact .of_object rfl ⟨h.1.survives.writable, hargs.writable, trivial⟩
    (Json.read₂ h.1.survives.read hargs.read rfl)

theorem Fits.survives {c : ChainCall} (h : c.Fits) : Survives toJson ofJson? c := by
  cases c with
  | implicit => exact .of_plain rfl rfl
  | super constructor args => exact .of_payload (survives_call h) rfl (fun _ => rfl) rfl
  | sibling constructor args => exact .of_payload (survives_call h) rfl (fun _ => rfl) rfl

end ChainCall

namespace Chain

structure Fits (c : Chain) : Prop where
  call : c.call.Fits
  fieldParams : ∀ p ∈ c.fieldParams, p.1.Fits ∧ p.2.Fits

theorem Fits.survives {c : Chain} (h : c.Fits) : Survives toJson ofJson? c := by
  have hparams : Survives _ _ c.fieldParams :=
    .list fun p hp => .pair (h.fieldParams p hp).1.survives (h.fieldParams p hp).2.survives
  exact .of_object rfl ⟨h.call.survives.writable, hparams.writable, trivial⟩
    (Json.read₂ h.call.survives.read hparams.read rfl)

end Chain

namespace FunctionDecl

structure Fits (f : FunctionDecl) : Prop where
  id : f.id.Fits
  kind : f.kind.Fits
  scope : f.scope.Fits
  returnTy : f.returnTy.Fits
  typeParams : ∀ t ∈ f.typeParams, t.Fits
  params : ∀ d ∈ f.params, d.Fits
  body : ∀ e ∈ f.body, e.Fits
  chain : ∀ c ∈ f.chain, c.Fits
  lowered : ∀ b ∈ f.lowered, b.Fits

theorem Fits.survives {f : FunctionDecl} (h : f.Fits) : Survives toJson ofJson? f := by
  have htypeParams := survives_refs h.typeParams
  have hparams := survives_refs h.params
  have hbody : ∀ e ∈ f.body, Survives Expr.toJson Expr.ofJson? e :=
    fun e he => (h.body e he).survives
  have hchain : ∀ c ∈ f.chain, Survives Chain.toJson Chain.ofJson? c :=
    fun c hc => (h.chain c hc).survives
  have hlowered : ∀ b ∈ f.lowered, Survives Body.toJson Body.ofJson? b :=
    fun b hb => (h.lowered b hb).survives
  refine .of_object rfl ⟨h.id.survives.writable, trivial, h.kind.survives.writable,
    h.scope.survives.writable, h.returnTy.survives.writable, htypeParams.writable, hparams.writable,
    Survives.writable_option hbody, Survives.writable_option hchain, trivial, trivial,
    Survives.writable_option hlowered, trivial⟩ ?_
  rw [ofJson?, Json.fields?_object (by rfl) (by decide), Option.bind_eq_bind, Option.bind_some]
  simp only [List.map]
  rw [h.id.survives.need_bind, (Survives.string _).need_bind, h.kind.survives.need_bind,
    h.scope.survives.need_bind, h.returnTy.survives.need_bind, htypeParams.need_bind,
    hparams.need_bind, Survives.maybe_bind hbody, Survives.maybe_bind hchain,
    (Survives.bool _).need_bind, (Survives.bool _).need_bind, Survives.maybe_bind hlowered,
    Option.pure_def]

end FunctionDecl

namespace TypeParameter

theorem survives {t : TypeParameter} (h : t.id.Fits) : Survives toJson ofJson? t := by
  refine .of_object rfl ⟨h.survives.writable, trivial, trivial⟩ ?_
  rw [ofJson?, Json.fields?_object (by rfl) (by decide)]
  simp only [List.map, Json.need, Option.bind_eq_bind, Option.bind_some, Option.pure_def,
    Json.string?, h.survives.read]

end TypeParameter

/-! ### Programs -/

namespace Program

/-- Every position and count fits in 32 bits, every slot in 32 bits with a sign, and
there is neither a literal nor an instruction with a fractional constant. -/
structure Fits (p : Program) : Prop where
  scopes : ∀ s ∈ p.scopes.toList, s.Fits
  definitions : ∀ d ∈ p.definitions.toList, d.Fits
  classes : ∀ c ∈ p.classes.toList, c.Fits
  functions : ∀ f ∈ p.functions.toList, f.Fits
  typeParams : ∀ t ∈ p.typeParams.toList, t.id.Fits
  globals : ∀ g ∈ p.globals.toList, g.Fits
  initFunction : ∀ f ∈ p.initFunction, f.Fits

theorem Fits.survives {p : Program} (h : p.Fits) : Survives toJson ofJson? p := by
  have hscopes : Survives _ _ p.scopes.toList := .list fun s hs => (h.scopes s hs).survives
  have hdefinitions : Survives _ _ p.definitions.toList :=
    .list fun d hd => (h.definitions d hd).survives
  have hclasses : Survives _ _ p.classes.toList := .list fun c hc => (h.classes c hc).survives
  have hfunctions : Survives _ _ p.functions.toList := .list fun f hf => (h.functions f hf).survives
  have htypeParams : Survives _ _ p.typeParams.toList :=
    .list fun t ht => TypeParameter.survives (h.typeParams t ht)
  have hglobals : Survives _ _ p.globals.toList := .list fun g hg => (h.globals g hg).survives
  have hstrings : Survives _ _ p.strings.toList := .list fun s _ => .string s
  have hinit := Ref.survives_option h.initFunction
  refine .of_object rfl ⟨hscopes.writable, hdefinitions.writable, hclasses.writable,
    hfunctions.writable, htypeParams.writable, hglobals.writable, hstrings.writable,
    Survives.writable_option hinit, trivial⟩ ?_
  rw [ofJson?, Json.fields?_object (by rfl) (by decide), Option.bind_eq_bind, Option.bind_some]
  simp only [List.map]
  rw [hscopes.need_bind, hdefinitions.need_bind, hclasses.need_bind, hfunctions.need_bind,
    htypeParams.need_bind, hglobals.need_bind, hstrings.need_bind, Survives.maybe_bind hinit,
    Option.pure_def]

/-- A program that fits the stored form is read back from its text exactly as it was, whatever its
tables hold, if the text nests no deeper than the reader goes. -/
theorem ofText?_toText {p : Program} (h : p.Fits)
    (hdepth : p.toJson.depth ≤ nestingLimit) : ofText? p.toText = some p := by
  have hparse : Json.parse? nestingLimit p.toJson.pretty = some p.toJson :=
    (Json.parse?_pretty_eq_some_iff h.survives.writable nestingLimit).mpr hdepth
  rw [ofText?, toText, hparse, Option.bind_some, h.survives.read]

/-- A generic class with one field and a lowered method. Its text has escapes, numbers
at both ends of their range, and a handler. -/
def boxed : Program where
  scopes := #[⟨⟨0⟩, none, .global, .empty⟩, ⟨⟨1⟩, some ⟨0⟩, .ofClass ⟨0⟩, .ofList [("x", ⟨0⟩)]⟩]
  definitions := #[⟨⟨0⟩, "x", .field ⟨0⟩, .variable ⟨0⟩, true, ⟨1⟩⟩]
  classes := #[{ id := ⟨0⟩, name := "Box", supertype := some ⟨⟨0⟩, [.i32], false⟩,
                 interfaces := [], typeParams := [⟨0⟩], scope := ⟨1⟩,
                 fields := [⟨⟨0⟩, some (.literal .i64 (.i64 (-9223372036854775808)))⟩],
                 methods := [⟨0⟩], constructors := [], initializer := none,
                 origin := .closure ⟨0⟩, isFinal := true,
                 layout := some ⟨[⟨⟨0⟩, .erasedPointer⟩], [⟨⟨0⟩, none⟩]⟩ }]
  functions := #[{ id := ⟨0⟩, name := "f", kind := .method ⟨0⟩, scope := ⟨1⟩,
                   returnTy := .object ⟨0⟩ [.variable ⟨0⟩] true, typeParams := [], params := [⟨0⟩],
                   body := some (.attempt .unit (.literal .unit (.string "\"\n\\\x01é"))
                     [.mk (some ⟨0⟩) none (.block .unit [.function ⟨0⟩])] none),
                   chain := some ⟨.sibling ⟨0⟩ [.self .unit], [(⟨0⟩, ⟨0⟩)]⟩,
                   isBuiltin := false, isFinal := false,
                   lowered := some ⟨[⟨⟨0⟩, "x", .i8, -1⟩], [],
                     [⟨⟨0⟩, [.loadLocal (-2147483648), .callVirtual 4294967295 0, .ret]⟩]⟩ }]
  typeParams := #[⟨⟨0⟩, "T"⟩]
  globals := #[⟨⟨0⟩, none⟩]
  strings := #["", "\t\""]
  initFunction := some ⟨0⟩

theorem ofText?_toText_boxed :
    boxed.Fits ∧ boxed.toJson.depth ≤ nestingLimit ∧ ofText? boxed.toText = some boxed := by
  have hdepth : boxed.toJson.depth ≤ nestingLimit := by decide
  have hvariable : (Ty.variable ⟨0⟩).Fits := show Ref.Fits _ by decide
  have hscopes : ∀ s ∈ boxed.scopes.toList, s.Fits := by
    simp only [boxed, forall_mem_cons]
    exact ⟨⟨by decide, by decide, trivial, by simp [NameTable.Fits, NameTable.empty]⟩,
      ⟨by decide, by decide, show Ref.Fits _ by decide, by
        unfold NameTable.Fits; decide⟩, by simp⟩
  have hclasses : ∀ c ∈ boxed.classes.toList, c.Fits := by
    have hfield : FieldDecl.Fits ⟨⟨0⟩, some (.literal .i64 (.i64 (-9223372036854775808)))⟩ :=
      ⟨by decide, by simp [Expr.Fits, Node.Fits, Ty.Fits, Literal.Fits]⟩
    have hsuper : ClassTy.Fits ⟨⟨0⟩, [.i32], false⟩ :=
      ⟨by decide, by simp [Ty.Fits]⟩
    have hlayout : ClassLayout.Fits ⟨[⟨⟨0⟩, .erasedPointer⟩], [⟨⟨0⟩, none⟩]⟩ :=
      ⟨by decide, by decide⟩
    simp only [boxed, forall_mem_singleton]
    exact ⟨by decide, by simpa using hsuper, by simp, by decide, by decide, by simpa using hfield,
      by decide, by decide, by decide, show Ref.Fits _ by decide, by simpa using hlayout⟩
  have hfunctions : ∀ f ∈ boxed.functions.toList, f.Fits := by
    have hcode : Body.Fits ⟨[⟨⟨0⟩, "x", .i8, -1⟩], [],
        [⟨⟨0⟩, [.loadLocal (-2147483648), .callVirtual 4294967295 0, .ret]⟩]⟩ :=
      ⟨by simpa using ⟨by decide, trivial, by decide⟩, by simp, by
        simp [Block.Fits, Inst.Fits]; decide⟩
    have hchain : Chain.Fits ⟨.sibling ⟨0⟩ [.self .unit], [(⟨0⟩, ⟨0⟩)]⟩ :=
      ⟨⟨by decide, by simp [Expr.Fits, Node.Fits, Expr.ty, Ty.Fits]⟩, by decide⟩
    simp only [boxed, forall_mem_singleton]
    refine ⟨by decide, by unfold FunctionKind.Fits; decide, by decide,
      ⟨by decide, hvariable, trivial⟩, by simp, by decide, ?_, by simpa using hchain,
      by simpa using hcode⟩
    simp [Expr.Fits, Node.Fits, Expr.ty, Ty.Fits, Literal.Fits, Clause.binding,
      Clause.guard]
    decide
  have h : boxed.Fits := {
    scopes := hscopes
    definitions := by
      simp only [boxed, forall_mem_singleton]
      exact ⟨by decide, show Ref.Fits _ by decide, hvariable, by decide⟩
    classes := hclasses
    functions := hfunctions
    typeParams := by decide
    globals := by
      simp only [boxed, forall_mem_singleton]
      exact ⟨by decide, by simp⟩
    initFunction := by decide }
  exact ⟨h, hdepth, ofText?_toText h hdepth⟩

end Program

end StackBackend
