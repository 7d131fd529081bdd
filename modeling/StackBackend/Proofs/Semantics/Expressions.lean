import StackBackend.Proofs.Semantics.Values

/-! What expressions mean, from left to right. Evaluation is partial: an expression
whose operands do not have the types it is lowered for has no meaning, and neither
has one that leaves the forms treated here. A loop is followed for a bounded number
of rounds, so an expression completes if it does so for some bound. -/

namespace StackBackend

/-- What a running function body can see. -/
structure Source where
  vars : DefnId → Value
  world : World

/-- How control leaves an expression that does not complete. -/
inductive Exit where
  | returned (v : Value)
  | thrown (x : Value)

/-- The meaning of a piece of a function body: nothing if it is stuck, otherwise how
it ends and in what state. -/
def Meaning (α : Type) : Type := Source → Option (Except Exit α × Source)

namespace Meaning

variable {α β : Type}

instance : Monad Meaning where
  pure a := fun σ => some (.ok a, σ)
  bind m f := fun σ =>
    match m σ with
    | none => none
    | some (.ok a, σ') => f a σ'
    | some (.error x, σ') => some (.error x, σ')

def stuck : Meaning α := fun _ => none

def exit (x : Exit) : Meaning α := fun σ => some (.error x, σ)

def read (f : Source → Option α) : Meaning α := fun σ => (f σ).map fun a => (.ok a, σ)

def write (f : Source → Option Source) : Meaning Unit := fun σ => (f σ).map fun σ' => (.ok (), σ')

def need (x : Option α) : Meaning α := read fun _ => x

/-- Completes however the piece ends. -/
def observe (m : Meaning α) : Meaning (Except Exit α) := fun σ =>
  (m σ).map fun (o, σ') => (.ok o, σ')

def ignore (m : Meaning α) : Meaning Unit := do let _ ← m

def truth (v : Value) : Meaning Bool :=
  match v with
  | .boolean b => pure b
  | _ => stuck

/-- Runs `body` as long as `test` holds. -/
def iterate (test : Meaning Value) (body : Meaning Unit) : Nat → Meaning Value
  | 0 => stuck
  | rounds + 1 => do
    if ← truth (← test) then
      body
      iterate test body rounds
    else pure .unit

def catching (m : Meaning α) : Meaning (Except Value α) := do
  match ← m.observe with
  | .ok a => pure (.ok a)
  | .error (.thrown x) => pure (.error x)
  | .error (.returned v) => exit (.returned v)

/-- A `return` passes a cleanup on its way out. -/
def leaving (m : Meaning α) (cleanup : Meaning Unit) : Meaning α := do
  match ← m.observe with
  | .ok a => pure a
  | .error (.thrown x) => exit (.thrown x)
  | .error (.returned v) =>
    cleanup
    exit (.returned v)

/-- A protected body. A handler takes an exception or leaves it, and the cleanup
follows unless a handler throws itself. -/
def attempt (body : Meaning α) (handle : Value → Meaning (Option α)) (cleanup : Meaning Unit) :
    Meaning α := do
  match ← body.catching.leaving cleanup with
  | .ok v =>
    cleanup
    pure v
  | .error x =>
    match ← (handle x).leaving cleanup with
    | some v =>
      cleanup
      pure v
    | none =>
      cleanup
      exit (.thrown x)

end Meaning

namespace Runtime

open Meaning

/-- What becomes of a value where another type is asked for: between class types it
passes a cast. -/
def coerce (R : Runtime) (source target : Ty) (v : Value) : Meaning Value :=
  match source, target with
  | .object c args _, .object c' args' nullable =>
    if c ≠ c' ∨ args ≠ args' then do
      let ty ← need (R.typeAt? (.object c' args' nullable))
      read fun σ => if R.host.admits σ.world v ty then some v else none
    else pure v
  | _, _ => pure v

def defn? (R : Runtime) (d : DefnId) : Option Definition := R.program.definitions[d.index]?

def readVariable (R : Runtime) (d : DefnId) : Meaning Value := do
  match (← need (R.defn? d)).kind with
  | .global index => read fun σ => some (σ.world.globals index)
  | .parameter | .localVar => read fun σ => some (σ.vars d)
  | .field _ => stuck

def bindVariable (d : DefnId) (v : Value) : Meaning Unit :=
  write fun σ => some { σ with vars := Function.update σ.vars d v }

def writeVariable (R : Runtime) (d : DefnId) (v : Value) : Meaning Unit := do
  match (← need (R.defn? d)).kind with
  | .global index => write fun σ => some { σ with world := σ.world.setGlobal index v }
  | .parameter | .localVar => bindVariable d v
  | .field _ => stuck

/-- Where the object that `v` refers to keeps a field. It must be of the class the
receiver has by its type. -/
def fieldPlace? (R : Runtime) (w : World) (receiver : Ty) (v : Value) (d : DefnId) :
    Option (Nat × Nat × Storage) := do
  let .object address := v | none
  let o ← w.heap address
  let c ← receiver.class?
  if R.isBelow? o.cls c = some true then
    let (index, storage) ← R.fieldSlot? o.cls d
    some (address, index, storage)
  else none

def readField (R : Runtime) (receiver : Ty) (v : Value) (d : DefnId) : Meaning Value := do
  let nullable := (← need (R.defn? d)).ty.isNullable
  read fun σ => do
    let (address, index, storage) ← R.fieldPlace? σ.world receiver v d
    let held ← σ.world.field? address index
    if storage.yields nullable held then some held else none

def writeField (R : Runtime) (receiver : Ty) (v : Value) (d : DefnId) (new : Value) :
    Meaning Unit :=
  write fun σ => do
    let (address, index, storage) ← R.fieldPlace? σ.world receiver v d
    if storage.holds new then
      let world ← σ.world.setField? address index new
      some { σ with world }
    else none

def classOf? (w : World) (x : Value) : Option ClassId :=
  match x with
  | .object address => (w.heap address).map Obj.cls
  | _ => none

/-- Whether a clause with the given guard takes the exception. -/
def takes (R : Runtime) (guard : Option ClassId) (x : Value) : Meaning Bool :=
  read fun σ => do R.isBelow? (← classOf? σ.world x) (guard.getD exceptionClass)

def bindException (binding : Option DefnId) (x : Value) : Meaning Unit :=
  match binding with
  | some d => bindVariable d x
  | none => pure ()

mutual

def eval (R : Runtime) (returnTy : Ty) (rounds : Nat) : Expr → Meaning Value
  | .literal _ value => pure (.ofLiteral value)
  | .uninitialized _ => pure .uninitialized
  | .variable _ d => R.readVariable d
  | .field _ receiver d => do
    let r ← R.eval returnTy rounds receiver
    R.readField receiver.ty r d
  | .assign _ (.variable ty d) value => do
    let v ← R.eval returnTy rounds value
    let v ← R.coerce value.ty ty v
    R.writeVariable d v
    pure v
  | .assign _ (.field ty receiver d) value => do
    let r ← R.eval returnTy rounds receiver
    let v ← R.eval returnTy rounds value
    let v ← R.coerce value.ty ty v
    R.writeField receiver.ty r d v
    pure v
  | .compound _ op (.variable ty d) value => do
    let old ← R.readVariable d
    let v ← R.eval returnTy rounds value
    let new ← need (R.host.applyBinary op ty old v)
    R.writeVariable d new
    pure new
  | .compound _ op (.field ty receiver d) value => do
    let r ← R.eval returnTy rounds receiver
    let old ← R.readField receiver.ty r d
    let v ← R.eval returnTy rounds value
    let new ← need (R.host.applyBinary op ty old v)
    R.writeField receiver.ty r d new
    pure new
  | .initField _ receiver d value => do
    let v ← R.eval returnTy rounds value
    let v ← R.coerce value.ty (← need (R.defn? d)).ty v
    let r ← R.eval returnTy rounds receiver
    R.writeField receiver.ty r d v
    pure .unit
  | .binary _ op left right => do
    let a ← R.eval returnTy rounds left
    let b ← R.eval returnTy rounds right
    need (R.host.applyBinary op left.ty a b)
  | .unary _ op operand => do
    let a ← R.eval returnTy rounds operand
    need (R.host.applyUnary op operand.ty a)
  | .and _ left right => do
    let a ← R.eval returnTy rounds left
    if ← truth a then R.eval returnTy rounds right else pure a
  | .or _ left right => do
    let a ← R.eval returnTy rounds left
    if ← truth a then pure a else R.eval returnTy rounds right
  | .block _ stmts => R.evalStmts returnTy rounds stmts
  | .cond _ test onTrue none => do
    let b ← truth (← R.eval returnTy rounds test)
    if b then do
      (R.eval returnTy rounds onTrue).ignore
      pure .unit
    else pure .unit
  | .cond _ test onTrue (some onFalse) => do
    let b ← truth (← R.eval returnTy rounds test)
    if b then R.eval returnTy rounds onTrue else R.eval returnTy rounds onFalse
  | .loop _ test body =>
    iterate (R.eval returnTy rounds test) (R.eval returnTy rounds body).ignore rounds
  | .throw _ operand => do
    let x ← R.eval returnTy rounds operand
    let _ ← read fun σ => classOf? σ.world x
    exit (.thrown x)
  | .ret _ none => exit (.returned .unit)
  | .ret _ (some value) => do
    let v ← R.eval returnTy rounds value
    let v ← R.coerce value.ty returnTy v
    exit (.returned v)
  | .attempt _ body clauses none =>
    attempt (R.eval returnTy rounds body) (R.evalClauses returnTy rounds clauses) (pure ())
  | .attempt _ body clauses (some cleanup) =>
    attempt (R.eval returnTy rounds body) (R.evalClauses returnTy rounds clauses)
      (R.eval returnTy rounds cleanup).ignore
  | _ => stuck

/-- The value is that of a trailing expression, or unit. -/
def evalStmts (R : Runtime) (returnTy : Ty) (rounds : Nat) : List Stmt → Meaning Value
  | [] => pure .unit
  | [.expr e] => R.eval returnTy rounds e
  | .expr e :: rest => do
    let _ ← R.eval returnTy rounds e
    R.evalStmts returnTy rounds rest
  | .declare _ none :: rest => R.evalStmts returnTy rounds rest
  | .declare d (some init) :: rest => do
    let v ← R.eval returnTy rounds init
    let v ← R.coerce init.ty (← need (R.defn? d)).ty v
    bindVariable d v
    R.evalStmts returnTy rounds rest
  | .function _ :: rest => R.evalStmts returnTy rounds rest

/-- The value of the first clause that takes the exception, if there is one. -/
def evalClauses (R : Runtime) (returnTy : Ty) (rounds : Nat) :
    List Clause → Value → Meaning (Option Value)
  | [], _ => pure none
  | .mk binding guard body :: rest, x => do
    if ← R.takes guard x then
      bindException binding x
      let v ← R.eval returnTy rounds body
      pure (some v)
    else R.evalClauses returnTy rounds rest x

end

/-- A function body: the value it completes with or returns. -/
def call (R : Runtime) (returnTy : Ty) (rounds : Nat) (body : Expr) : Meaning Value := do
  match ← (do R.coerce body.ty returnTy (← R.eval returnTy rounds body)).observe with
  | .ok v | .error (.returned v) => pure v
  | .error (.thrown x) => exit (.thrown x)

end Runtime

end StackBackend
