import StackBackend.Lowering.Site
import StackBackend.Proofs.Semantics.Values

/-! The stack machine that lowered code is meant for. An operator instruction computes
the operator it stands for, on operands of its width. Of calls the machine knows the
ones that handlers make: `typeof` gives the class of an object, and `is-subtype-of`
compares two of them. -/

namespace StackBackend

/-! ## Operators -/

def IntOp.binary? : IntOp → Option BinaryOp
  | .add => some .add
  | .sub => some .sub
  | .mul => some .mul
  | .div => some .div
  | .mod => some .rem
  | .lsl => some .shl
  | .lsr => some .lshr
  | .asr => some .ashr
  | .and => some .bitAnd
  | .or => some .bitOr
  | .xor => some .bitXor
  | .eq => some .eq
  | .ne => some .ne
  | .lt => some .lt
  | .le => some .le
  | .gt => some .gt
  | .ge => some .ge
  | .neg | .inv => none

def IntOp.unary? : IntOp → Option UnaryOp
  | .neg => some .neg
  | .inv => some .bitNot
  | _ => none

def FloatOp.binary? : FloatOp → Option BinaryOp
  | .add => some .add
  | .sub => some .sub
  | .mul => some .mul
  | .div => some .div
  | .eq => some .eq
  | .ne => some .ne
  | .lt => some .lt
  | .le => some .le
  | .gt => some .gt
  | .ge => some .ge
  | .neg => none

def FloatOp.unary? : FloatOp → Option UnaryOp
  | .neg => some .neg
  | _ => none

/-- An operator on the top of the stack, whose operands have the given registers. -/
def Host.operate (host : Host) (registers : Numeric) (binary : Option BinaryOp)
    (unary : Option UnaryOp) (stack : List Value) : Option (List Value) :=
  match binary, unary, stack with
  | some op, _, b :: a :: rest =>
    if a.numeric? = some registers ∧ b.numeric? = some registers then
      (host.binary op a b).map (· :: rest)
    else none
  | none, some op, a :: rest =>
    if a.numeric? = some registers then (host.unary op a).map (· :: rest) else none
  | _, _, _ => none

/-! ## Configurations -/

structure Memory where
  frame : Int → Value
  world : World
  /-- The classes of type objects; one that is new has none yet. -/
  typeObjects : List (Option ClassId)

structure Machine extends Runtime where
  code : BlockId → List Inst
  pool : List String

structure Running where
  block : BlockId
  offset : Nat
  /-- The top of the stack comes first. -/
  stack : List Value
  /-- Open regions, the innermost first: the handler, and how high the stack was. -/
  handlers : List (BlockId × Nat)
  memory : Memory

inductive Config where
  | running (r : Running)
  | returned (v : Value) (memory : Memory)
  | threw (x : Value) (memory : Memory)

/-- The lowest values of a stack. -/
def cutTo (height : Nat) (stack : List Value) : List Value := stack.drop (stack.length - height)

/-- An exception goes to the innermost open region, or out of the function. -/
def Config.raise (x : Value) (stack : List Value) (handlers : List (BlockId × Nat))
    (memory : Memory) : Config :=
  match handlers with
  | [] => .threw x memory
  | (handler, height) :: outer =>
    .running ⟨handler, 0, x :: cutTo height stack, outer, memory⟩

namespace Machine

/-- A field of the object on top of the stack. -/
def load (accepts : Value → Bool) (index : Nat) (stack : List Value) (m : Memory) :
    Option (List Value) :=
  match stack with
  | .object address :: rest => do
    let v ← m.world.field? address index
    if accepts v then some (v :: rest) else none
  | _ => none

/-- A field of the object on top of the stack takes the value below it. -/
def store (accepts : Value → Bool) (index : Nat) (stack : List Value) (m : Memory) :
    Option (List Value × Memory) :=
  match stack with
  | .object address :: v :: rest =>
    if accepts v then do
      let world ← m.world.setField? address index v
      some (rest, { m with world })
    else none
  | _ => none

def typesOf? : List Value → Option (List Ty)
  | [] => some []
  | .type ty :: rest => do
    let others ← typesOf? rest
    some (ty :: others)
  | _ :: _ => none

def builtinSlot? (M : Machine) (c : ClassId) (method : FunctionId) : Option Nat :=
  (M.layout? c).bind (·.methodSlot? method)

/-- What an instruction that does not end a block does to the stack and to memory. -/
def effect (M : Machine) (i : Inst) (stack : List Value) (m : Memory) :
    Option (List Value × Memory) :=
  match i, stack with
  | .nop, _ => some (stack, m)
  | .drop, _ :: rest => some (rest, m)
  | .dup, v :: rest => some (v :: v :: rest, m)
  | .dupAt depth, _ => stack[depth]?.map fun v => (v :: stack, m)
  | .swap, a :: b :: rest => some (b :: a :: rest, m)
  | .swap2, a :: b :: c :: rest => some (c :: b :: a :: rest, m)
  | .unit, _ => some (.unit :: stack, m)
  | .true, _ => some (.boolean true :: stack, m)
  | .false, _ => some (.boolean false :: stack, m)
  | .null, _ => some (.null :: stack, m)
  | .uninitialized, _ => some (.uninitialized :: stack, m)
  | .i8 n, _ => some (.i8 n :: stack, m)
  | .i16 n, _ => some (.i16 n :: stack, m)
  | .i32 n, _ => some (.i32 n :: stack, m)
  | .i64 n, _ => some (.i64 n :: stack, m)
  | .f32 x, _ => some (.f32 x :: stack, m)
  | .f64 x, _ => some (.f64 x :: stack, m)
  | .string index, _ => M.pool[index]?.map fun text => (.string text :: stack, m)
  | .loadLocal slot, _ => some (m.frame slot :: stack, m)
  | .storeLocal slot, v :: rest => some (rest, { m with frame := Function.update m.frame slot v })
  | .loadGlobal index, _ => some (m.world.globals index :: stack, m)
  | .storeGlobal index, v :: rest => some (rest, { m with world := m.world.setGlobal index v })
  | .load8 index, _ => (load Storage.bits8.holds index stack m).map (·, m)
  | .load16 index, _ => (load Storage.bits16.holds index stack m).map (·, m)
  | .load32 index, _ => (load Storage.bits32.holds index stack m).map (·, m)
  | .load64 index, _ => (load Storage.bits64.holds index stack m).map (·, m)
  | .loadPointer index, _ => (load Value.isReference index stack m).map (·, m)
  | .loadPointerChecked index, _ =>
    (load (fun v => v.isReference && v.isAssigned) index stack m).map (·, m)
  | .store8 index, _ => store Storage.bits8.holds index stack m
  | .store16 index, _ => store Storage.bits16.holds index stack m
  | .store32 index, _ => store Storage.bits32.holds index stack m
  | .store64 index, _ => store Storage.bits64.holds index stack m
  | .storePointer index, _ => store Value.isReference index stack m
  | .classRef c, _ => some (.cls c :: stack, m)
  | .classType c, _ => do
    let arity ← M.arity? c
    let args ← typesOf? (stack.take arity).reverse
    if args.length = arity then some (.type (.object c args false) :: stack.drop arity, m)
    else none
  | .typeVar t, _ => some (.type (M.typeArg t) :: stack, m)
  | .cast, .type ty :: v :: rest =>
    if M.host.admits m.world v ty then some (v :: rest, m) else none
  | .sameObject, b :: a :: rest =>
    if a.isReference && b.isReference then some (.boolean (a = b) :: rest, m) else none
  | .notSameObject, b :: a :: rest =>
    if a.isReference && b.isReference then some (.boolean (a ≠ b) :: rest, m) else none
  | .int op w, _ => (M.host.operate (.int w) op.binary? op.unary? stack).map (·, m)
  | .float op w, _ => (M.host.operate (.float w) op.binary? op.unary? stack).map (·, m)
  | .notBool, .boolean b :: rest => (M.host.unary .not (.boolean b)).map (· :: rest, m)
  | .callVirtual 1 slot, .object address :: rest => do
    let o ← m.world.heap address
    if M.builtinSlot? objectClass typeofMethod = some slot then
      some (.typeObject m.typeObjects.length :: rest,
        { m with typeObjects := m.typeObjects ++ [some o.cls] })
    else none
  | .allocateArray c 1, _ =>
    if c = typeClass then
      some (.typeObject m.typeObjects.length :: stack,
        { m with typeObjects := m.typeObjects ++ [none] })
    else none
  | .call f, .cls c :: .typeObject n :: rest =>
    if f = typeConstructor then
      some (.unit :: rest, { m with typeObjects := m.typeObjects.set n (some c) })
    else none
  | .callVirtual 2 slot, .typeObject b :: .typeObject a :: rest => do
    let sub ← m.typeObjects[a]?.join
    let sup ← m.typeObjects[b]?.join
    if M.builtinSlot? typeClass isSubtypeOfMethod = some slot then
      let below ← M.isBelow? sub sup
      some (.boolean below :: rest, m)
    else none
  | _, _ => none

/-! What single instructions do. -/

section

variable {M : Machine} {stack rest : List Value} {m : Memory} {a b v : Value} {c : ClassId}
  {index slot : Nat}

theorem effect_drop : M.effect .drop (v :: rest) m = some (rest, m) := rfl

theorem effect_dup : M.effect .dup (v :: rest) m = some (v :: v :: rest, m) := rfl

theorem effect_null : M.effect .null stack m = some (.null :: stack, m) := rfl

theorem effect_string : M.effect (.string index) stack m =
    M.pool[index]?.map fun text => (.string text :: stack, m) := rfl

theorem effect_classRef : M.effect (.classRef c) stack m = some (.cls c :: stack, m) := rfl

theorem effect_classArgs : M.effect (.classType c) stack m = (M.arity? c).bind fun arity =>
    (typesOf? (stack.take arity).reverse).bind fun args =>
      if args.length = arity then some (.type (.object c args false) :: stack.drop arity, m)
      else none := rfl

theorem effect_fieldLoad {storage : Storage} {nullable : Bool} :
    M.effect (storage.load nullable index) stack m =
      (load (storage.yields nullable) index stack m).map (·, m) := by
  have hload : ∀ {accepts : Value → Bool}, (∀ v, storage.yields nullable v = accepts v) →
      (load (storage.yields nullable) index stack m).map (·, m) =
        (load accepts index stack m).map (·, m) := by
    intro accepts h
    rw [funext h]
  cases storage <;> cases nullable <;>
    exact (hload fun v => by simp [Storage.yields, Storage.holds]).symm

theorem effect_fieldStore {storage : Storage} :
    M.effect (storage.store index) stack m = store storage.holds index stack m := by
  cases storage <;> rfl

theorem effect_int {op : IntOp} {w : IntWidth} : M.effect (.int op w) stack m =
    (M.host.operate (.int w) op.binary? op.unary? stack).map (·, m) := rfl

theorem effect_float {op : FloatOp} {w : FloatWidth} : M.effect (.float op w) stack m =
    (M.host.operate (.float w) op.binary? op.unary? stack).map (·, m) := rfl

theorem effect_sameObject : M.effect .sameObject (b :: a :: rest) m =
    if a.isReference && b.isReference then some (.boolean (a = b) :: rest, m) else none := rfl

theorem effect_notSameObject : M.effect .notSameObject (b :: a :: rest) m =
    if a.isReference && b.isReference then some (.boolean (a ≠ b) :: rest, m) else none := rfl

theorem effect_notBoolean {b : Bool} : M.effect .notBool (.boolean b :: rest) m =
    (M.host.unary .not (.boolean b)).map (· :: rest, m) := rfl

theorem effect_typeof {address : Nat} : M.effect (.callVirtual 1 slot) (.object address :: rest) m =
    (m.world.heap address).bind fun o =>
      if M.builtinSlot? objectClass typeofMethod = some slot then
        some (.typeObject m.typeObjects.length :: rest,
          { m with typeObjects := m.typeObjects ++ [some o.cls] })
      else none := rfl

theorem effect_typeAllocation : M.effect (.allocateArray typeClass 1) stack m =
    some (.typeObject m.typeObjects.length :: stack,
      { m with typeObjects := m.typeObjects ++ [none] }) := rfl

theorem effect_typeConstructor {n : Nat} :
    M.effect (.call typeConstructor) (.cls c :: .typeObject n :: rest) m =
      some (.unit :: rest, { m with typeObjects := m.typeObjects.set n (some c) }) := rfl

theorem effect_isSubtypeOf {a b : Nat} :
    M.effect (.callVirtual 2 slot) (.typeObject b :: .typeObject a :: rest) m =
      m.typeObjects[a]?.join.bind fun sub => m.typeObjects[b]?.join.bind fun sup =>
        if M.builtinSlot? typeClass isSubtypeOfMethod = some slot then
          (M.isBelow? sub sup).bind fun below => some (.boolean below :: rest, m)
        else none := rfl

end

/-- One instruction. A function returns with every region closed. -/
def exec (M : Machine) (i : Inst) (r : Running) : Option Config :=
  match i, r.stack, r.handlers with
  | .ret, v :: _, [] => some (.returned v r.memory)
  | .branch b, _, _ => some (.running { r with block := b, offset := 0 })
  | .branchIf a b, .boolean c :: rest, _ =>
    some (.running { r with block := if c then a else b, offset := 0, stack := rest })
  | .pushTry body handler, stack, handlers =>
    some (.running { r with
      block := body, offset := 0, handlers := (handler, stack.length) :: handlers })
  | .popTry b, _, _ :: outer => some (.running { r with block := b, offset := 0, handlers := outer })
  | .throw, x :: rest, handlers => some (.raise x rest handlers r.memory)
  | i, stack, _ =>
    if i.isTerminator then none
    else (M.effect i stack r.memory).map fun (stack, memory) =>
      .running { r with offset := r.offset + 1, stack, memory }

def step (M : Machine) (r : Running) : Option Config := do
  let i ← (M.code r.block)[r.offset]?
  M.exec i r

/-- A run of the machine. -/
inductive Reaches (M : Machine) : Config → Config → Prop where
  | refl (c : Config) : Reaches M c c
  | step {r : Running} {c c' : Config} (first : M.step r = some c) (rest : Reaches M c c') :
    Reaches M (.running r) c'

theorem Reaches.trans {M : Machine} {a b c : Config} (h : M.Reaches a b) (h' : M.Reaches b c) :
    M.Reaches a c := by
  induction h with
  | refl => exact h'
  | step first _ ih => exact .step first (ih h')

end Machine

end StackBackend
