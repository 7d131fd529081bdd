import StackBackend.Proofs.Lowering.Disciplines
import StackBackend.Proofs.Program.Mentions

/-! What holds of the steps of lowering holds of all that they are put together to. A relation
between two steps is followed through expressions and entries of functions once. The second step
stands for the first one at a time when functions have code, which lowering never looks at; a
property of the first step alone does not look at the second. -/

namespace StackBackend

open Lower

variable {α β F : Type} {i : Inst} {is : List Inst} {site : Site} {q : Program}
  {o : Option Body} {regions regions' : List Region}
  {c : ClassId} {d : DefnId} {f : FunctionId} {e : Expr} {source target receiver : Ty}
  {D : Discipline F} {N : Node → Prop} {Y : Ty → Prop} {Emit : Inst → F → F → Prop}
  {x y z : F} {n k : Nat}

/-- The same place once functions have code. -/
def Site.later (s : Site) (q : Program) (lowered : Option Body) : Site :=
  ⟨q, { s.function with lowered }, s.slots⟩

/-- The instruction may follow so many operands that were pushed for it. -/
abbrev Applies (D : Discipline F) (Emit : Inst → F → F → Prop) (i : Inst) (n : Nat) : Prop :=
  ∀ x, Emit i (D.raise^[n] x) (D.raise x)

/-- What the program and the function allow instructions to refer to, and what those find on
the stack. Nodes have types, and types have parts. -/
structure Permits (site : Site) (D : Discipline F) (N : Node → Prop) (Y : Ty → Prop)
    (Emit : Inst → F → F → Prop) : Prop where
  object : ∀ {c args nullable}, Y (.object c args nullable) →
    (∀ ty ∈ args, Y ty) ∧ Applies D Emit (.classType c) args.length
  typeVar : ∀ {t}, Y (.variable t) → Applies D Emit (.typeVar t) 0
  substitute : ∀ {params args ty}, (∀ a ∈ args, Y a) → Y ty → Y (ty.substitute params args)
  exprTy : ∀ {e}, N (.expr e) → Y e.ty
  defnTy : ∀ d defn, site.program.defnAt d = .ok defn → Y defn.ty
  returnTy : Y site.function.returnTy
  superArgs : ∀ c cls st, site.program.classAt c = .ok cls → cls.supertype = some st →
    ∀ ty ∈ st.args, Y ty
  typeParams : ∀ c cls, site.program.classAt c = .ok cls → ∀ t ∈ cls.typeParams, Y (.variable t)
  slot : ∀ d i, Site.slotOf? site.slots d = some i →
    Applies D Emit (.loadLocal i) 0 ∧ ∀ x, Emit (.storeLocal i) (D.raise x) x
  receiver : site.function.receiver?.isSome → Applies D Emit (.loadLocal 0) 0
  global : ∀ d defn n, site.program.defnAt d = .ok defn → defn.kind = .global n →
    Applies D Emit (.loadGlobal n) 0 ∧ ∀ x, Emit (.storeGlobal n) (D.raise x) x
  call : ∀ {ty f tys args}, N (.expr (.call ty f tys args)) →
    (∀ ty ∈ tys, Y ty) ∧ Applies D Emit (.call f) (tys.length + args.length)
  invoke : ∀ {ty receiver method tys args}, N (.expr (.invoke ty receiver method tys args)) →
    (∀ ty ∈ tys, Y ty) ∧ ∀ ownerArgs i s t, site.OwnerArgs receiver.ty method ownerArgs →
      (site.dispatch receiver.ty method args.length).Gives s i t →
      Applies D Emit i (tys.length + (ownerArgs.length + (args.length + 1)))
  new : ∀ {ty c f args}, N (.expr (.new ty c f args)) →
    Applies D Emit (.allocate c) ((ty.classTy?.map ClassTy.args).getD []).length ∧
      Applies D Emit (.call f) (((ty.classTy?.map ClassTy.args).getD []).length + (args.length + 1))
  /-- What handlers call, once the methods that they ask have slots. -/
  guard : ∀ {binding guard body a b}, N (.clause (.mk binding guard body)) →
    Site.slotIn? site.program typeofMethod objectClass = .ok (some a) →
    Site.slotIn? site.program isSubtypeOfMethod typeClass = .ok (some b) →
    Applies D Emit (.callVirtual 1 a) 1 ∧ Applies D Emit (.allocateArray typeClass 1) 0 ∧
      Applies D Emit (.classRef (guard.getD exceptionClass)) 0 ∧
      Applies D Emit (.call typeConstructor) 2 ∧ Applies D Emit (.callVirtual 2 b) 2
  self : ∀ c, site.function.kind = .constructor c → Applies D Emit (.loadLocal 0) 0
  superCall : ∀ c cls st f, site.function.kind = .constructor c → site.program.classAt c = .ok cls →
    cls.supertype = some st → site.program.defaultConstructor st.cls = .ok f →
    Applies D Emit (.call f) (st.args.length + 1)
  chain : ∀ c cls, site.function.kind = .constructor c → site.program.classAt c = .ok cls →
    (site.function.chain.getD .initial).call.Feeds cls (Applies D Emit)
  initializer : ∀ c cls f, site.function.kind = .constructor c → site.program.classAt c = .ok cls →
    cls.initializer = some f → Applies D Emit (.call f) (cls.typeParams.length + 1)

/-- Only what goes to slots has to be looked at. -/
theorem Permits.of_slots (site : Site) (D : Discipline F) (N : Node → Prop)
    (h : ∀ i x y, (∀ k, i ≠ .string k) → (∀ k, i ≠ .loadLocal k) → (∀ k, i ≠ .storeLocal k) → Emit i x y)
    (hslot : ∀ d i, Site.slotOf? site.slots d = some i →
      Applies D Emit (.loadLocal i) 0 ∧ ∀ x, Emit (.storeLocal i) (D.raise x) x)
    (hself : (site.function.receiver?.isSome ∨ ∃ c, site.function.kind = .constructor c) →
      Applies D Emit (.loadLocal 0) 0) : Permits site D N (fun _ => True) Emit := by
  have happlies : ∀ {i n}, (∀ k, i ≠ .string k) → (∀ k, i ≠ .loadLocal k) → (∀ k, i ≠ .storeLocal k) →
      Applies D Emit i n := fun hs hl hst _ => h _ _ _ hs hl hst
  constructor <;> intros
  case invoke =>
    refine ⟨fun _ _ => trivial, fun _ i s t _ hi => ?_⟩
    rcases (Site.gives_dispatch hi).2 with rfl | ⟨slot, rfl⟩ <;> exact happlies nofun nofun nofun
  case chain =>
    cases (site.function.chain.getD .initial).call <;>
      first | trivial | exact happlies nofun nofun nofun
  case slot hd => exact hslot _ _ hd
  case receiver hr => exact hself (.inl hr)
  case self hc => exact hself (.inr ⟨_, hc⟩)
  case guard => refine ⟨?_, ?_, ?_, ?_, ?_⟩ <;> exact happlies nofun nofun nofun
  all_goals first | trivial | exact happlies nofun nofun nofun |
    exact ⟨fun _ _ => trivial, happlies nofun nofun nofun⟩ |
    exact ⟨happlies nofun nofun nofun, happlies nofun nofun nofun⟩ |
    exact ⟨happlies nofun nofun nofun, fun _ => h _ _ _ nofun nofun nofun⟩

theorem Permits.all (site : Site) (D : Discipline F) (N : Node → Prop)
    (h : ∀ i x y, (∀ k, i ≠ .string k) → Emit i x y) : Permits site D N (fun _ => True) Emit :=
  .of_slots site D N (fun i x y hi _ _ => h i x y hi)
    (fun _ _ _ => ⟨fun _ => h _ _ _ nofun, fun _ => h _ _ _ nofun⟩) fun _ _ => h _ _ _ nofun

/-! ## Steps -/

/-- What may be said of two steps, with what holds before and after them. -/
abbrev Relation (F : Type) := ∀ ⦃α : Type⦄, F → F → Lower α → Lower α → Prop

/-- The relation holds of straight code. -/
structure Straight (D : Discipline F) (Emit : Inst → F → F → Prop)
    (R : Relation F) : Prop where
  plain : ∀ {i : Inst} {n k : Nat} {x : F}, i.IsPlain n k → Emit i (D.raise^[n] x) (D.raise^[k] x)
  pure : ∀ {α : Type} (a : α) {x : F}, R x x (pure a) (pure a)
  /-- The rest may use what the first step can give. -/
  bind_of : ∀ {α β : Type} {m m' : Lower α} {k k' : α → Lower β} {x y z : F}, R x y m m' →
    (∀ a s t, m.Gives s a t → R y z (k a) (k' a)) → R x z (m >>= k) (m' >>= k')
  lift : ∀ {α : Type} {a a' : Checked α} {x : F}, a.Clean → a' = a → R x x (liftM a) (liftM a')
  /-- Nothing is said of a step that stops. -/
  stop : ∀ {α : Type} {e : CompileError} {m : Lower α} {x y : F},
    (Fault.rejected e).isBlockFault = false → R x y (Lower.stop e) m
  emit : ∀ {i : Inst} {x y : F}, i.isTerminator = false → Emit i x y →
    R x y (Lower.emit i) (Lower.emit i)

/-- What follows a region, given its exit and its handler. -/
abbrev Closing := (exit handler : BlockId) → Lower Unit

/-- Clauses, given where control goes on and where the exception stands. -/
abbrev Trying := (done next : BlockId) → Lower BlockId

variable {R : Relation F}
  {m m' : Lower Unit}

/-- Regions that do the same on the way out, with all cleanups run where they belong. -/
def SameRegions (D : Discipline F) (R : Relation F) :
    List Region → List Region → F → Prop
  | [], [], x => D.IsBase x
  | r :: rs, r' :: rs', x => r'.isOpen = r.isOpen ∧
    (∀ y, SameRegions D R rs rs' y → R y y (r.cleanup.getD (pure ())) (r'.cleanup.getD (pure ()))) ∧
      if r.isOpen then ∃ h y, x = D.guard h y ∧ SameRegions D R rs rs' y
      else SameRegions D R rs rs' x
  | _, _, _ => False

namespace SameRegions

theorem raise : ∀ {regions regions' : List Region} {x : F}, SameRegions D R regions regions' x →
    SameRegions D R regions regions' (D.raise x)
  | [], [], x, h => D.isBase_raise x h
  | r :: rs, r' :: rs', x, ⟨hopen, hcleanup, h⟩ => by
    refine ⟨hopen, hcleanup, ?_⟩
    split at h <;> rename_i hr
    · obtain ⟨handler, y, rfl, hy⟩ := h
      rw [if_pos hr]
      exact ⟨handler, D.raise y, (D.guard_raise handler y).symm, hy.raise⟩
    · rw [if_neg hr]
      exact h.raise

theorem bare (w : Straight D Emit R) (h : SameRegions D R regions regions' x) (handler : BlockId) :
    SameRegions D R (⟨none, true⟩ :: regions) (⟨none, true⟩ :: regions') (D.guard handler x) :=
  ⟨rfl, fun _ _ => w.pure (), handler, x, rfl, h⟩

variable (hm : ∀ y, SameRegions D R regions regions' y → R y y m m')
include hm

theorem guarded (h : SameRegions D R regions regions' x) (handler : BlockId) :
    SameRegions D R (⟨some m, true⟩ :: regions) (⟨some m', true⟩ :: regions') (D.guard handler x) :=
  ⟨rfl, hm, handler, x, rfl, h⟩

/-- A handler at work: the region is closed, and the cleanup is still to come. -/
theorem handling (h : SameRegions D R regions regions' x) :
    SameRegions D R (⟨some m, false⟩ :: regions) (⟨some m', false⟩ :: regions') x :=
  ⟨rfl, hm, h⟩

end SameRegions

/-! ## Straight code -/

namespace Straight

section

variable (w : Straight D Emit R)
include w

theorem bind {m m' : Lower α} {k k' : α → Lower β} (hm : R x y m m') (hk : ∀ a, R y z (k a) (k' a)) :
    R x z (m >>= k) (m' >>= k') :=
  w.bind_of hm fun a _ _ _ => hk a

theorem step (hi : i.IsPlain n k) : R (D.raise^[n] x) (D.raise^[k] x) (Lower.emit i) (Lower.emit i) :=
  w.emit hi.isTerminator (w.plain hi)

theorem push (hi : i.IsPlain 0 1) : R x (D.raise x) (Lower.emit i) (Lower.emit i) := w.step hi

theorem dup : R (D.raise x) (D.raise (D.raise x)) (Lower.emit .dup) (Lower.emit .dup) :=
  w.step (n := 1) (k := 2) ⟨rfl, rfl⟩

theorem drop : R (D.raise x) x (Lower.emit .drop) (Lower.emit .drop) :=
  w.step (n := 1) (k := 0) ⟨rfl, rfl⟩

theorem next (hi : i.isTerminator = false) (he : Emit i x y)
    (h : R y z (Lower.emitAll is) (Lower.emitAll is)) :
    R x z (Lower.emitAll (i :: is)) (Lower.emitAll (i :: is)) :=
  w.bind (w.emit hi he) fun _ => h

theorem emitAll (hi : ∀ i ∈ is, i.isTerminator = false ∧ Emit i x x) :
    R x x (Lower.emitAll is) (Lower.emitAll is) := by
  induction is with
  | nil => exact w.pure ()
  | cons i rest ih =>
    obtain ⟨hi, hrest⟩ := List.forall_mem_cons.mp hi
    exact w.next hi.1 hi.2 (ih hrest)

theorem orFail (a : Option α) (cause : LoweringCause) :
    R x x (site.orFail a cause) ((site.later q o).orFail a cause) := by
  cases a with
  | none => exact w.stop rfl
  | some a => exact w.pure a

theorem discard (mode : Mode) :
    R (D.raise x) (D.lift mode x) (Lower.discard mode) (Lower.discard mode) := by
  cases mode
  · exact w.pure ()
  · exact w.drop

theorem dupIfValue (mode : Mode) : R (D.raise x) (D.raise (D.lift mode x)) (Lower.dupIfValue mode)
    (Lower.dupIfValue mode) := by
  cases mode
  · exact w.dup
  · exact w.pure ()

theorem unitIfValue (mode : Mode) :
    R x (D.lift mode x) (Lower.unitIfValue mode) (Lower.unitIfValue mode) := by
  cases mode
  · exact w.push ⟨rfl, rfl⟩
  · exact w.pure ()

end

/-! ## Questions -/

section

variable (w : Straight D Emit R) (hq : q.source = site.program.source)
include w hq

theorem defnAt (d : DefnId) : R x x (liftM (site.program.defnAt d)) (liftM (q.defnAt d)) :=
  w.lift .entryAt (Program.source_defnAt hq d)

theorem functionAt {k k' : FunctionDecl → Lower α}
    (hk : ∀ decl lowered, site.program.functionAt f = .ok decl →
      R x y (k decl) (k' { decl with lowered })) :
    R x y (liftM (site.program.functionAt f) >>= k) (liftM (q.functionAt f) >>= k') := by
  rcases Program.source_functionAt hq f with ⟨e, hp, hq⟩ | ⟨decl, code, hp, hq⟩
  · refine w.bind_of (w.lift .entryAt (hq.trans hp.symm)) fun _ _ _ h => ?_
    cases hp.symm.trans (gives_lift.mp h).1
  · have hdecl := hk decl code hp
    rw [hp, hq]
    exact hdecl

theorem slot (d : DefnId) : R x x (site.slot d) ((site.later q o).slot d) := by
  unfold Site.slot
  rw [show (site.later q o).slots = site.slots from rfl]
  cases site.slots.reverse.find? (·.defn = d) with
  | some l => exact w.pure _
  | none => exact w.bind (w.defnAt hq d) fun _ => w.stop rfl

theorem fieldSlot (d : DefnId) : R x x (site.fieldSlot d) ((site.later q o).fieldSlot d) := by
  refine w.bind (w.defnAt hq d) fun defn => ?_
  split
  · refine w.bind (w.lift .entryAt (Program.source_classAt hq _)) fun cls => ?_
    split
    · exact w.stop rfl
    · split
      · exact w.pure _
      · exact w.stop rfl
  · exact w.stop rfl

end

end Straight

theorem raise_lift {mode : Mode} (h : D.Flat ∨ mode = .value) :
    D.raise (D.lift mode x) = D.raise (D.raise x) := by
  rcases h with hflat | rfl
  · rw [hflat, hflat, hflat]
    cases mode with
    | value => exact hflat x
    | effect => rfl
  · rfl

/-! ## Labels -/

/-- Labels of the two steps that stand for each other, with the fact that code there starts
from. -/
abbrev Marks (F : Type) := List (BlockId × BlockId × F)

/-- The ends of blocks, up to labels. -/
inductive Leap (D : Discipline F) (known : Marks F) : Inst → Inst → F → Prop where
  | ret {x : F} (h : D.IsBase x) : Leap D known .ret .ret (D.raise x)
  | throw {x : F} : Leap D known .throw .throw (D.raise x)
  | branch {a a' : BlockId} {x : F} (h : (a, a', x) ∈ known) :
    Leap D known (.branch a) (.branch a') x
  | branchIf {a a' b b' : BlockId} {x : F} (h : (a, a', x) ∈ known) (h' : (b, b', x) ∈ known) :
    Leap D known (.branchIf a b) (.branchIf a' b') (D.raise x)
  | pushTry {a a' b b' : BlockId} {x : F} (h : (b, b', D.guard a x) ∈ known)
      (h' : (a, a', D.raise x) ∈ known) : Leap D known (.pushTry b a) (.pushTry b' a') x
  | popTry {a b b' : BlockId} {x : F} (h : (b, b', x) ∈ known) :
    Leap D known (.popTry b) (.popTry b') (D.guard a x)

theorem Leap.isTerminator {known : Marks F} {i' : Inst} (h : Leap D known i i' x) :
    i.isTerminator = true := by
  cases h <;> rfl

/-- Where code is added: what holds there, if a block is open at all, and which labels are still
to be started. -/
structure Point (F : Type) where
  here : Option F
  due : List BlockId

/-- What may be said of two steps that touch labels. -/
abbrev Tracking (F : Type) := Marks F → Point F → Point F → ∀ ⦃α : Type⦄, Lower α → Lower α → Prop

/-- It holds of steps that touch labels too. Whatever is branched to is started afterwards, and
no block is left open when another one starts. -/
structure Tracked (D : Discipline F) (Emit : Inst → F → F → Prop)
    (R : Relation F) (L : Tracking F) : Prop extends Straight D Emit R where
  part : ∀ {known due} {α : Type} {m m' : Lower α} {x y : F}, R x y m m' →
    L known ⟨some x, due⟩ ⟨some y, due⟩ m m'
  whole : ∀ {α : Type} {m m' : Lower α} {x y : F}, L [] ⟨some x, []⟩ ⟨some y, []⟩ m m' → R x y m m'
  andThen : ∀ {known p q r} {α β : Type} {m m' : Lower α} {k k' : α → Lower β}, L known p q m m' →
    (∀ a s t, m.Gives s a t → L known q r (k a) (k' a)) → L known p r (m >>= k) (m' >>= k')
  reorder : ∀ {known p q due} {α : Type} {m m' : Lower α}, p.due.Perm due →
    L known ⟨p.here, due⟩ q m m' → L known p q m m'
  ask : ∀ {known p} {α : Type} {m m' : Lower α}, (∀ z, R z z m m') →
    (∀ {s a t}, m.Gives s a t → t = s) → L known p p m m'
  /-- Where no block is open anything may be said. -/
  relax : ∀ {known p due} {α : Type} {m m' : Lower α} {y : F}, L known p ⟨.none, due⟩ m m' →
    L known p ⟨some y, due⟩ m m'
  terminate : ∀ {known i i' x due}, Leap D known i i' x → (∀ l ∈ i.successors, l ∈ due) →
    L known ⟨some x, due⟩ ⟨.none, due⟩ (Lower.terminate i) (Lower.terminate i')
  label : ∀ {known} {p q : Point F} {α : Type} {k k' : BlockId → Lower α} (z : F),
    (∀ l l', L ((l, l', z) :: known) ⟨p.here, l :: p.due⟩ q (k l) (k' l')) →
    L known p q (Lower.label >>= k) (Lower.label >>= k')
  /-- What holds at the first label may refer to the second one. -/
  labels : ∀ {known} {p q : Point F} {α : Type} {k k' : BlockId → BlockId → Lower α} (z : BlockId → F)
    (u : F), (∀ a a' b b', L ((a, a', z b) :: (b, b', u) :: known) ⟨p.here, a :: b :: p.due⟩ q (k a b)
      (k' a' b')) →
    L known p q (Lower.label >>= fun a => Lower.label >>= fun b => k a b)
      (Lower.label >>= fun a => Lower.label >>= fun b => k' a b)
  start : ∀ {known l l' z due}, (l, l', z) ∈ known →
    L known ⟨.none, l :: due⟩ ⟨some z, due⟩ (Lower.start l) (Lower.start l')
  startThen : ∀ {known l l' z due h} {m m' : Lower Unit}, (l, l', z) ∈ known →
    L known ⟨some z, due⟩ ⟨h, due⟩ m m' →
    L known ⟨.none, l :: due⟩ ⟨h, due⟩ (Lower.startThen l m) (Lower.startThen l' m')
  ifReachable : ∀ {known due x y} {m m' : Lower Unit}, L known ⟨some x, due⟩ ⟨some y, due⟩ m m' →
    L known ⟨some x, due⟩ ⟨some y, due⟩ (do if ← Lower.isReachable then m)
      (do if ← Lower.isReachable then m')
  isReferenced : ∀ {known l l' z p}, (l, l', z) ∈ known →
    L known p p (Lower.isReferenced l) (Lower.isReferenced l')
  resumeOrRethrow : ∀ {x}, R (D.raise x) x Site.resumeOrRethrow Site.resumeOrRethrow
  handlerEnd : ∀ {known exit exit' handler handler' due x y}, (exit, exit', y) ∈ known →
    (handler, handler', D.raise x) ∈ known →
    L known ⟨.none, exit :: handler :: due⟩ ⟨some y, due⟩ (Site.handlerEnd exit handler)
      (Site.handlerEnd exit' handler')

/-- It does not matter whether labels are started. -/
structure Loose (D : Discipline F) (Emit : Inst → F → F → Prop)
    (R : Relation F) (L : Tracking F) : Prop extends Tracked D Emit R L where
  leap : ∀ {known i i' x due}, Leap D known i i' x →
    L known ⟨some x, due⟩ ⟨.none, due⟩ (Lower.terminate i) (Lower.terminate i')
  startOrSkip : ∀ {known l l' z due h} {m m' : Lower Unit}, (l, l', z) ∈ known →
    L known ⟨some z, due⟩ ⟨h, []⟩ m m' →
    L known ⟨.none, l :: due⟩ ⟨h, []⟩ (Lower.startThen l m) (Lower.startThen l' m')

/-- Strings and loops too, wherever they come from. -/
structure Composes (D : Discipline F) (Emit : Inst → F → F → Prop)
    (R : Relation F) (L : Tracking F) : Prop extends Tracked D Emit R L where
  emitString : ∀ text {x}, R x (D.raise x) (Lower.emitString text) (Lower.emitString text)
  loop : ∀ {a b c d x} mode, R x (D.raise x) a b → R x x c d →
    R x (D.lift mode x) (Site.loop a c mode) (Site.loop b d mode)

variable {L : Tracking F}

namespace Tracked

variable {known : Marks F} {due due' : List BlockId} {p p' r : Point F} {l l' : BlockId}

/-- What follows a region starts its exit and its handler. -/
abbrev Ends (D : Discipline F) (L : Tracking F) (x y : F)
    (rest rest' : Closing) : Prop :=
  ∀ known due exit exit' handler handler', (exit, exit', y) ∈ known →
    (handler, handler', D.raise x) ∈ known →
    L known ⟨none, exit :: handler :: due⟩ ⟨some y, due⟩ (rest exit handler) (rest' exit' handler')

/-- Clauses start where the exception stands and leave open where those go that none of them
takes. They are followed together with what comes after them. -/
abbrev Goes (D : Discipline F) (L : Tracking F) (x y : F)
    (m m' : Trying) : Prop :=
  ∀ known due p done done' next next' (k k' : BlockId → Lower Unit), (done, done', y) ∈ known →
    (next, next', D.raise x) ∈ known → (∀ known' other other', known ⊆ known' →
      (other, other', D.raise x) ∈ known' →
      L known' ⟨none, done :: other :: due⟩ p (k other) (k' other')) →
    L known ⟨none, done :: next :: due⟩ p (m done next >>= k) (m' done' next' >>= k')

section

variable (w : Tracked D Emit R L)
include w

theorem bindAt {k k' : Unit → Lower β} (hm : L known p p' m m') (hk : L known p' r (k ()) (k' ())) :
    L known p r (m >>= k) (m' >>= k') :=
  w.andThen hm fun _ _ _ _ => hk

theorem startAt {k k' : Bool → Lower β} (hl : (l, l', x) ∈ known) (hdue : due.Perm (l :: due'))
    (hk : ∀ b, L known ⟨some x, due'⟩ r (k b) (k' b)) :
    L known ⟨none, due⟩ r (Lower.start l >>= k) (Lower.start l' >>= k') :=
  w.reorder hdue (w.andThen (w.start hl) fun b _ _ _ => hk b)

theorem arm {b b' : BlockId} (hl : (l, l', x) ∈ known) (hdue : due.Perm (l :: due'))
    (hm : R x y m m') (hb : (b, b', y) ∈ known) (hdue' : b ∈ due') :
    L known ⟨none, due⟩ ⟨none, due'⟩ (Lower.startThen l (m >>= fun _ => Lower.branch b))
      (Lower.startThen l' (m' >>= fun _ => Lower.branch b')) :=
  w.reorder hdue (w.startThen hl
    (w.bindAt (w.part hm) (w.terminate (.branch hb) (by simpa [Inst.successors]))))

theorem close {h : BlockId} : R (D.guard h x) x Region.close Region.close := by
  refine w.whole (w.label x fun l l' => w.bindAt (w.terminate (.popTry (b := l) ?_) ?_) ?_)
  · exact List.mem_cons_self
  · simp [Inst.successors]
  · exact w.startAt List.mem_cons_self (.refl _) fun _ => w.part (w.pure ())

theorem leaveAll : ∀ {regions regions' : List Region} {x : F},
    SameRegions D R regions regions' x → ∃ y, D.IsBase y ∧
      R (D.raise x) (D.raise y) (Region.leaveAll regions) (Region.leaveAll regions')
  | [], [], x, h => ⟨x, h, w.pure ()⟩
  | r :: rs, r' :: rs', x, ⟨hopen, hcleanup, h⟩ => by
    split at h <;> rename_i hr
    · obtain ⟨handler, inner, rfl, hinner⟩ := h
      obtain ⟨y, hy, hrest⟩ := leaveAll hinner
      have hleave : R (D.raise (D.guard handler inner)) (D.raise inner) r.leave r'.leave := by
        rw [Region.leave, Region.leave, hopen, if_pos hr, if_pos hr, ← D.guard_raise]
        exact w.bind w.close fun _ => hcleanup _ hinner.raise
      exact ⟨y, hy, w.bind hleave fun _ => hrest⟩
    · obtain ⟨y, hy, hrest⟩ := leaveAll h
      have hleave : R (D.raise x) (D.raise x) r.leave r'.leave := by
        rw [Region.leave, Region.leave, hopen, if_neg hr, if_neg hr]
        exact hcleanup _ h.raise
      exact ⟨y, hy, w.bind hleave fun _ => hrest⟩

theorem ret (h : D.IsBase x) : R (D.raise x) y (Lower.terminate .ret) (Lower.terminate .ret) :=
  w.whole (w.relax (w.terminate (.ret h) (by simp [Inst.successors])))

theorem throw : R (D.raise x) y (Lower.terminate .throw) (Lower.terminate .throw) :=
  w.whole (w.relax (w.terminate .throw (by simp [Inst.successors])))

theorem emitString {text : String} (hemit : ∀ i, Emit (.string i) x (D.raise x))
    (hquiet : ∀ {α : Type} {m : Lower α}, (∀ {s a t}, m.Gives s a t → t.draft = s.draft) → R x x m m) :
    R x (D.raise x) (Lower.emitString text) (Lower.emitString text) := by
  refine w.whole (w.ifReachable (w.part (w.bind (hquiet fun h => ?_) fun i => w.emit rfl (hemit i))))
  cases h
  rfl

theorem shortCircuit {a b : Lower Unit} (needed : Bool) (hm : R x (D.raise x) a b) :
    R (D.raise x) (D.raise x) (Site.shortCircuit a needed) (Site.shortCircuit b needed) := by
  refine w.whole (w.bindAt (w.part w.dup) ?_)
  refine w.label (D.raise x) fun onRight _ => w.label (D.raise x) fun join _ => ?_
  refine w.bindAt (w.terminate (x := D.raise (D.raise x)) ?_ ?_) ?_
  · cases needed <;> exact .branchIf (by simp) (by simp)
  · cases needed <;> simp [Inst.successors]
  refine w.reorder (.swap ..) (w.bindAt (w.startThen (z := D.raise x) (h := none)
    (by simp) (w.bindAt (w.part w.drop) ?_)) ?_)
  · exact w.bindAt (w.part hm) (w.terminate (.branch (by simp)) (by simp [Inst.successors]))
  · exact w.startAt (by simp) (.refl _) fun _ => w.part (w.pure ())

theorem twoArms {a b c d : Lower Unit} (hm : R x y a b) (hn : R x y c d) :
    R (D.raise x) y (Site.twoArms a c) (Site.twoArms b d) := by
  refine w.whole (w.label x fun onTrue _ => w.label x fun onFalse _ => w.label y fun join _ => ?_)
  refine w.bindAt (w.terminate (.branchIf (by simp) (by simp)) (by simp [Inst.successors])) ?_
  have horder : [join, onFalse, onTrue].Perm [onTrue, join, onFalse] :=
    ((List.Perm.swap ..).cons join).trans (.swap ..)
  refine w.bindAt (w.arm (by simp) horder hm (by simp) (by simp)) ?_
  refine w.bindAt (w.arm (by simp) (.swap ..) hn (by simp) (by simp)) ?_
  exact w.startAt (by simp) (.refl _) fun _ => w.part (w.pure ())

theorem oneArm {a b : Lower Unit} (mode : Mode) (hm : R x x a b) :
    R (D.raise x) (D.lift mode x) (Site.oneArm a mode) (Site.oneArm b mode) := by
  refine w.whole (w.label x fun onTrue _ => w.label x fun join _ => ?_)
  refine w.bindAt (w.terminate (.branchIf (by simp) (by simp)) (by simp [Inst.successors])) ?_
  refine w.bindAt (w.arm (by simp) (.swap ..) hm (by simp) (by simp)) ?_
  exact w.startThen (by simp) (w.part (w.unitIfValue mode))

theorem protect {rest rest' : Closing} (hm : ∀ h, R (D.guard h x) (D.guard h y) m m')
    (hrest : Ends D L x y rest rest') : R x y (Site.protect m rest) (Site.protect m' rest') := by
  refine w.whole (w.ifReachable (w.labels (fun h => D.guard h x) (D.raise x) fun _ _ handler _ => ?_))
  refine w.bindAt (w.terminate (.pushTry (by simp) (by simp)) (by simp [Inst.successors])) ?_
  refine w.label y fun exit _ => w.startAt (x := D.guard handler x) (by simp) (.swap ..) fun _ => ?_
  refine w.bindAt (w.part (hm handler)) (w.bindAt (w.terminate (.popTry (by simp)) ?_) ?_)
  · simp [Inst.successors]
  · exact hrest _ _ _ _ _ _ (by simp) (by simp)

theorem cleanupEnd (hm : R (D.raise y) (D.raise y) m m') (hsame : D.raise y = D.raise (D.raise x)) :
    Ends D L x y (Site.cleanupEnd m) (Site.cleanupEnd m') := by
  intro known due exit exit' handler handler' he hh
  refine w.label (D.raise y) fun cleanup _ => ?_
  refine w.bindAt (w.arm (x := y) (by simp [he]) (.swap ..) (w.push ⟨rfl, rfl⟩) (by simp) (by simp)) ?_
  have hmark : R (D.raise x) (D.raise y) (Lower.emitAll [.uninitialized, .swap])
      (Lower.emitAll [.uninitialized, .swap]) := by
    rw [hsame]
    exact w.next rfl (w.plain (n := 0) (k := 1) ⟨rfl, rfl⟩)
      (w.next rfl (w.plain (n := 2) (k := 2) ⟨rfl, rfl⟩) (w.pure ()))
  refine w.bindAt (w.arm (by simp [hh]) (.swap ..) hmark (by simp) (by simp)) ?_
  refine w.startThen (by simp) (w.bindAt (w.part hm) ?_)
  refine w.andThen (w.isReferenced (.tail _ he)) fun referenced _ _ _ => ?_
  cases referenced
  · exact w.relax (w.terminate .throw (by simp [Inst.successors]))
  · exact w.part w.resumeOrRethrow

theorem clause {site site' : Site} {a b : Nat} {binding : Option DefnId} {guard : Option ClassId}
    {rest rest' : Trying}
    (htest : R (D.raise x) (D.raise (D.raise x)) (Site.testGuard a b guard) (Site.testGuard a b guard))
    (hbind : R (D.raise x) x (site.bindException binding) (site'.bindException binding))
    (hm : R x y m m') (hrest : Goes D L x y rest rest') :
    Goes D L x y (fun done next => site.clauseCode a b binding guard m done next >>= rest done)
      (fun done next => site'.clauseCode a b binding guard m' done next >>= rest' done) := by
  intro known due p done done' next next' k k' hd hn hk
  simp only [Site.clauseCode, bind_assoc, pure_bind]
  refine w.startAt hn (.swap ..) fun _ => ?_
  refine w.label (D.raise x) fun matched _ => w.label (D.raise x) fun other _ => ?_
  refine w.bindAt (w.part htest) (w.bindAt (w.terminate (.branchIf (by simp) (by simp)) ?_) ?_)
  · simp [Inst.successors]
  refine w.startAt (by simp) (.swap ..) fun _ => w.bindAt (w.part hbind) (w.bindAt (w.part hm) ?_)
  refine w.bindAt (w.terminate (.branch (by simp [hd])) (by simp [Inst.successors])) ?_
  refine w.reorder (.swap ..) (hrest _ _ _ _ _ _ _ _ _ (by simp [hd]) (by simp) ?_)
  refine fun known' _ _ hsub => hk known' _ _ ?_
  exact fun _ h => hsub (by simp [h])

theorem askFirst {m m' : Lower α} {rest rest' : α → Closing} (hm : ∀ z, R z z m m')
    (hstate : ∀ {s a t}, m.Gives s a t → t = s)
    (hrest : ∀ a s t, m.Gives s a t → Ends D L x y (rest a) (rest' a)) :
    Ends D L x y (fun exit handler => m >>= fun a => rest a exit handler)
      (fun exit handler => m' >>= fun a => rest' a exit handler) :=
  fun _ _ _ _ _ _ he hh =>
    w.andThen (w.ask hm hstate) fun a s t h => hrest a s t h _ _ _ _ _ _ he hh

end

theorem Goes.thenEnds {m m' : Trying} {rest rest' : Closing} (hm : Goes D L x y m m')
    (hrest : Ends D L x y rest rest') :
    Ends D L x y (fun exit handler => m exit handler >>= rest exit)
      (fun exit handler => m' exit handler >>= rest' exit) :=
  fun _ _ _ _ _ _ he hh =>
    hm _ _ _ _ _ _ _ _ _ he hh fun _ _ _ hsub ho => hrest _ _ _ _ _ _ (hsub he) ho

end Tracked

namespace Loose

variable (w : Loose D Emit R L)
include w

theorem loop {n n' : Lower Unit} (mode : Mode) (hm : R x (D.raise x) m m') (hn : R x x n n') :
    R x (D.lift mode x) (Site.loop m n mode) (Site.loop m' n' mode) := by
  refine w.whole (w.label x fun header _ => w.label x fun body _ => w.label x fun exit _ => ?_)
  have horder : [exit, body, header].Perm [header, exit, body] :=
    ((List.Perm.swap ..).cons exit).trans (.swap ..)
  refine w.bindAt (w.leap (.branch (by simp))) (w.reorder horder (w.startOrSkip (z := x) (by simp) ?_))
  refine w.bindAt (w.part hm) (w.bindAt (w.leap (.branchIf (by simp) (by simp))) ?_)
  refine w.reorder (.swap ..) (w.bindAt (w.startThen (h := none) (by simp)
    (w.bindAt (w.part hn) ?_)) ?_)
  · exact w.leap (.branch (by simp))
  · exact w.startThen (by simp) (w.part (w.unitIfValue mode))

theorem composes
    (hs : ∀ text {x}, R x (D.raise x) (Lower.emitString text) (Lower.emitString text)) :
    Composes D Emit R L where
  toTracked := w.toTracked
  emitString := hs
  loop mode := w.loop mode

end Loose

/-- It holds of steps that touch labels, and nothing is kept about them but which ones of the
second step stand for those of the first. -/
structure Labelled (ok : Inst → Prop)
    (L : Marks Unit → ∀ ⦃α : Type⦄, Lower α → Lower α → Prop) : Prop where
  free : ∀ i : Inst, i.hasOperand = false → ok i
  weaken : ∀ {known known' : Marks Unit} {α : Type} {m m' : Lower α}, known ⊆ known' →
    L known m m' → L known' m m'
  pure : ∀ {known} {α : Type} (a : α), L known (pure a) (pure a)
  bind_of : ∀ {known} {α β : Type} {m m' : Lower α} {k k' : α → Lower β}, L known m m' →
    (∀ a s t, m.Gives s a t → L known (k a) (k' a)) → L known (m >>= k) (m' >>= k')
  lift : ∀ {known} {α : Type} {a a' : Checked α}, a.Clean → a' = a → L known (liftM a) (liftM a')
  stop : ∀ {known} {α : Type} {e : CompileError} {m : Lower α},
    (Fault.rejected e).isBlockFault = false → L known (Lower.stop e) m
  emit : ∀ {known} {i : Inst}, i.isTerminator = false → ok i → L known (Lower.emit i) (Lower.emit i)
  terminate : ∀ {known i i'}, Leap .free known i i' () → ok i →
    L known (Lower.terminate i) (Lower.terminate i')
  label : ∀ {known} {α : Type} {k k' : BlockId → Lower α},
    (∀ l l', L ((l, l', ()) :: known) (k l) (k' l')) →
    L known (Lower.label >>= k) (Lower.label >>= k')
  start : ∀ {known l l'}, (l, l', ()) ∈ known → L known (Lower.start l) (Lower.start l')
  resume : ∀ {known l l'}, (l, l', ()) ∈ known → L known (Lower.resume l) (Lower.resume l')
  isReachable : ∀ {known}, L known Lower.isReachable Lower.isReachable
  isReferenced : ∀ {known l l'}, (l, l', ()) ∈ known →
    L known (Lower.isReferenced l) (Lower.isReferenced l')

namespace Labelled

variable {ok : Inst → Prop} {L : Marks Unit → ∀ ⦃α : Type⦄, Lower α → Lower α → Prop}
  {known : Marks Unit} {l l' : BlockId}

theorem straight (w : Labelled ok L) : Straight .free (fun i _ _ => ok i) fun _ _ _ m m' => L known m m' where
  plain hi := w.free _ hi.1
  pure a _ := w.pure a
  bind_of := w.bind_of
  lift := w.lift
  stop := w.stop
  emit := w.emit

section

variable (w : Labelled ok L)
include w

theorem bind {m m' : Lower α} {k k' : α → Lower β} (hm : L known m m')
    (hk : ∀ a, L known (k a) (k' a)) : L known (m >>= k) (m' >>= k') :=
  w.bind_of hm fun a _ _ _ => hk a

theorem ends {i' : Inst} (h : Leap .free known i i' ()) :
    L known (Lower.terminate i) (Lower.terminate i') :=
  w.terminate h (w.free i (by cases h <;> rfl))

theorem startThen (hl : (l, l', ()) ∈ known) (hm : L known m m') :
    L known (Lower.startThen l m) (Lower.startThen l' m') := by
  refine w.bind (w.start hl) fun b => ?_
  cases b
  · exact w.pure ()
  · exact hm

theorem resumeOrRethrow : L known Site.resumeOrRethrow Site.resumeOrRethrow := by
  refine w.label fun _ _ => w.label fun _ _ => ?_
  refine w.bind (w.straight.emitAll (x := ()) ?_) fun _ => w.bind (w.ends (.branchIf ?_ ?_)) fun _ => ?_
  · simp [Inst.isTerminator, w.free _ (show Inst.hasOperand .dup = false from rfl),
      w.free _ (show Inst.hasOperand .null = false from rfl),
      w.free _ (show Inst.hasOperand .sameObject = false from rfl)]
  · simp
  · simp
  refine w.bind (w.start (by simp)) fun _ => w.bind (w.straight.drop (x := ())) fun _ => ?_
  refine w.bind (w.start (by simp)) fun _ => w.bind (w.ends .throw) fun _ => ?_
  exact w.resume (by simp)

theorem loose : Loose .free (fun i _ _ => ok i) (fun _ _ _ m m' => L [] m m')
    fun known _ _ _ m m' => L known m m' where
  toStraight := w.straight
  part h := w.weaken (List.nil_subset _) h
  whole h := h
  andThen := w.bind_of
  reorder _ h := h
  ask h _ := w.weaken (List.nil_subset _) (h ())
  relax h := h
  terminate h _ := w.ends h
  leap h := w.ends h
  label _ h := w.label h
  labels _ _ h := w.label fun a a' => w.label fun b b' => w.weaken (by simp) (h a a' b b')
  start h := w.start h
  startThen hl hm := w.startThen hl hm
  startOrSkip hl hm := w.startThen hl hm
  ifReachable hm := w.bind w.isReachable fun reachable => by
    cases reachable
    · exact w.pure ()
    · exact hm
  isReferenced h := w.isReferenced h
  resumeOrRethrow := w.resumeOrRethrow
  handlerEnd he hh := by
    refine w.bind (w.start he) fun joined => ?_
    refine w.bind (w.startThen hh (w.ends .throw)) fun _ => ?_
    cases joined
    · exact w.pure ()
    · exact w.resume he

theorem composes (hs : ∀ text, L [] (Lower.emitString text) (Lower.emitString text)) :
    Composes .free (fun i _ _ => ok i) (fun _ _ _ m m' => L [] m m')
      fun known _ _ _ m m' => L known m m' :=
  w.loose.composes fun text _ => hs text

end

end Labelled

/-! ## Places -/

/-- A relation that is followed at a place. Strings and loops stand in the function. -/
structure Walks (site : Site) (q : Program) (D : Discipline F) (N : Node → Prop) (Y : Ty → Prop)
    (Emit : Inst → F → F → Prop) (R : Relation F)
    (L : Tracking F) : Prop extends Tracked D Emit R L where
  permits : Permits site D N Y Emit
  source : q.source = site.program.source
  string : ∀ {ty text x}, N (.expr (.literal ty (.string text))) →
    R x (D.raise x) (Lower.emitString text) (Lower.emitString text)
  loop : ∀ {ty test body regions m' n' x} mode, N (.expr (.loop ty test body)) →
    R x (D.raise x) (site.lower test regions .value) m' → R x x (site.lower body regions .effect) n' →
    R x (D.lift mode x) (Site.loop (site.lower test regions .value) (site.lower body regions .effect) mode)
      (Site.loop m' n' mode)

namespace Walks

section

variable (w : Walks site q D N Y Emit R L)
include w

theorem literal {ty : Ty} {value : Literal} (h : N (.expr (.literal ty value))) :
    R x (D.raise x) (Site.literal value) (Site.literal value) := by
  cases value with
  | string text => exact w.string h
  | boolean b => cases b <;> exact w.push ⟨rfl, rfl⟩
  | _ => exact w.push ⟨rfl, rfl⟩

theorem dispatch (receiver : Ty) (method : FunctionId) (argc : Nat) :
    R x x (site.dispatch receiver method argc) ((site.later q o).dispatch receiver method argc) := by
  refine w.functionAt w.source fun target _ _ => ?_
  dsimp only
  split
  · exact w.pure _
  · refine w.bind (w.lift (.hasFinalClass _ _) (Program.source_hasFinalClass w.source _)) fun isFinal => ?_
    split
    · exact w.pure _
    · exact w.bind (w.lift (.firstSlot _ _ _) (Program.source_firstSlot? w.source _ _)) fun _ =>
        w.bind (w.orFail ..) fun _ => w.pure _

theorem handlerSlots {rest rest' : Nat → Nat → Closing}
    (hrest : ∀ a b, Site.slotIn? site.program typeofMethod objectClass = .ok (some a) →
      Site.slotIn? site.program isSubtypeOfMethod typeClass = .ok (some b) →
      Tracked.Ends D L x y (rest a b) (rest' a b)) :
    Tracked.Ends D L x y (fun exit handler => do
        let a ← site.builtinSlot objectClass typeofMethod
        let b ← site.builtinSlot typeClass isSubtypeOfMethod
        rest a b exit handler)
      (fun exit handler => do
        let a ← (site.later q o).builtinSlot objectClass typeofMethod
        let b ← (site.later q o).builtinSlot typeClass isSubtypeOfMethod
        rest' a b exit handler) := by
  have hslot : ∀ c method z,
      R z z (site.builtinSlot c method) ((site.later q o).builtinSlot c method) := by
    intro c method z
    refine w.bind (w.lift (.slotIn _ _ _) (Program.source_slotIn? w.source _ _)) fun found => ?_
    split
    · exact w.pure _
    · exact w.functionAt w.source fun _ _ _ => w.stop rfl
  refine w.askFirst (hslot _ _) (fun h => (Site.gives_builtinSlot h).1) fun a _ _ ha => ?_
  refine w.askFirst (hslot _ _) (fun h => (Site.gives_builtinSlot h).1) fun b _ _ hb => ?_
  exact hrest a b (Site.gives_builtinSlot ha).2 (Site.gives_builtinSlot hb).2

mutual
theorem emitTy : ∀ {ty : Ty} {x : F}, Y ty →
    R x (D.raise x) (site.emitTy ty) ((site.later q o).emitTy ty)
  | .object _ _ _, x, h =>
    have h := w.permits.object h
    w.bind (emitTys h.1) fun _ => w.emit rfl (h.2 x)
  | .variable _, x, h => w.emit rfl (w.permits.typeVar h x)
  | .unit, _, _ | .boolean, _, _ | .i8, _, _ | .i16, _, _ | .i32, _, _ | .i64, _, _ | .f32, _, _
  | .f64, _, _ | .nothing, _, _ | .null, _, _ => w.stop rfl
theorem emitTys : ∀ {tys : List Ty} {x : F}, (∀ ty ∈ tys, Y ty) →
    R x (D.raise^[tys.length] x) (site.emitTys tys) ((site.later q o).emitTys tys)
  | [], _, _ => w.pure ()
  | _ :: _, _, h =>
    have h := List.forall_mem_cons.mp h
    w.bind (emitTy h.1) fun _ => emitTys h.2
end

theorem coerce (h : Y target) :
    R (D.raise x) (D.raise x) (site.coerce source target) ((site.later q o).coerce source target) := by
  unfold Site.coerce
  split
  · split
    · exact w.bind (w.emitTy h) fun _ => w.step (n := 2) (k := 1) ⟨rfl, rfl⟩
    · exact w.pure ()
  · exact w.pure ()

theorem loadField (d : DefnId) :
    R (D.raise x) (D.raise x) (site.loadField d) ((site.later q o).loadField d) :=
  w.bind (w.fieldSlot w.source d) fun _ => w.bind (w.defnAt w.source d) fun _ =>
    w.step (n := 1) (k := 1) (Storage.isPlain_load ..)

theorem initField (d : DefnId) :
    R (D.raise (D.raise x)) x (site.initField d) ((site.later q o).initField d) :=
  w.bind (w.fieldSlot w.source d) fun _ => w.step (n := 2) (k := 0) (Storage.isPlain_store ..)

theorem storeField (d : DefnId) (mode : Mode) : R (D.raise (D.raise x)) (D.lift mode x)
    (site.storeField d mode) ((site.later q o).storeField d mode) := by
  unfold Site.storeField
  cases mode
  · exact w.bind (w.next rfl (w.plain (n := 1) (k := 2) (x := D.raise x) ⟨rfl, rfl⟩)
      (w.next rfl (w.plain (n := 3) (k := 3) ⟨rfl, rfl⟩) (w.pure ()))) fun _ => w.initField d
  · exact w.bind (w.step (n := 2) (k := 2) ⟨rfl, rfl⟩) fun _ => w.initField d

theorem loadLocal (d : DefnId) : R x (D.raise x) (do Lower.emit (.loadLocal (← site.slot d)))
    (do Lower.emit (.loadLocal (← (site.later q o).slot d))) :=
  w.bind_of (w.slot w.source d) fun i _ _ hi =>
    w.emit rfl ((w.permits.slot d i (Site.gives_slot.mp hi).1).1 x)

theorem storeLocal (d : DefnId) : R (D.raise x) x (do Lower.emit (.storeLocal (← site.slot d)))
    (do Lower.emit (.storeLocal (← (site.later q o).slot d))) :=
  w.bind_of (w.slot w.source d) fun i _ _ hi =>
    w.emit rfl ((w.permits.slot d i (Site.gives_slot.mp hi).1).2 x)

theorem loadVariable (d : DefnId) :
    R x (D.raise x) (site.loadVariable d) ((site.later q o).loadVariable d) := by
  refine w.bind_of (w.defnAt w.source d) fun defn _ _ hd => ?_
  split <;> rename_i hk
  · exact w.emit rfl ((w.permits.global d defn _ (gives_lift.mp hd).1 hk).1 x)
  · exact w.loadLocal d
  · exact w.loadLocal d
  · exact w.stop rfl

theorem storeVariable (d : DefnId) :
    R (D.raise x) x (site.storeVariable d) ((site.later q o).storeVariable d) := by
  refine w.bind_of (w.defnAt w.source d) fun defn _ _ hd => ?_
  split <;> rename_i hk
  · exact w.emit rfl ((w.permits.global d defn _ (gives_lift.mp hd).1 hk).2 x)
  · exact w.storeLocal d
  · exact w.storeLocal d
  · exact w.stop rfl

theorem binaryInst {op : BinaryOp} {ty : Ty} {k k' : Inst → Lower α}
    (hk : ∀ i, (∀ z, R (D.raise (D.raise z)) (D.raise z) (Lower.emit i) (Lower.emit i)) →
      R x y (k i) (k' i)) :
    R x y (site.binaryInst op ty >>= k) ((site.later q o).binaryInst op ty >>= k') :=
  w.bind_of (w.orFail ..) fun i _ _ hi =>
    hk i fun _ => w.step (n := 2) (k := 1) (BinaryOp.isPlain_inst (Site.gives_orFail.mp hi).1)

theorem emitOwnerTys {method : FunctionId} {rest rest' : Unit → Lower β} (hr : Y receiver)
    (hrest : ∀ args, site.OwnerArgs receiver method args →
      R (D.raise^[args.length] x) y (rest ()) (rest' ())) :
    R x y (site.emitOwnerTys receiver method >>= rest)
      ((site.later q o).emitOwnerTys receiver method >>= rest') := by
  simp only [Site.emitOwnerTys, bind_assoc]
  refine w.functionAt w.source fun f _ hfunction => ?_
  dsimp only
  split
  · rename_i ty owner hty howner
    have hargs : ∀ t ∈ ty.args, Y t := by
      cases receiver <;> cases hty
      exact (w.permits.object hr).1
    simp only [bind_assoc]
    refine w.bind_of (w.lift (.superclassWalk _ _ _ _)
      (Program.source_instantiateSupertype w.source _ _)) fun found _ _ h => ?_
    have hfound := (gives_lift.mp h).1
    have howned : site.OwnerArgs receiver method (found.getD []) := by
      refine ⟨f, hfunction, ?_⟩
      rw [hty, howner]
      exact ⟨found, hfound, rfl⟩
    split
    · refine w.bind (w.emitTys (Program.instantiateWithin_keeps (Q := fun args => ∀ t ∈ args, Y t)
        (fun hc hst hargs t ht => ?_) _ hargs hfound)) fun _ => hrest _ howned
      obtain ⟨u, hu, rfl⟩ := List.mem_map.mp ht
      exact w.permits.substitute hargs (w.permits.superArgs _ _ _ hc hst u hu)
    · exact w.bind (w.pure ()) fun _ => hrest _ howned
  · rename_i hnone
    refine w.bind (w.pure ()) fun _ => hrest [] ⟨f, hfunction, ?_⟩
    split
    · rename_i ty owner hty howner
      exact (hnone ty owner hty howner).elim
    · rfl

theorem bindException (binding : Option DefnId) :
    R (D.raise x) x (site.bindException binding) ((site.later q o).bindException binding) := by
  cases binding with
  | none => exact w.drop
  | some d => exact w.storeLocal d

theorem testGuard {binding : Option DefnId} {guard : Option ClassId} {body : Expr} {a b : Nat}
    (hn : N (.clause (.mk binding guard body)))
    (ha : Site.slotIn? site.program typeofMethod objectClass = .ok (some a))
    (hb : Site.slotIn? site.program isSubtypeOfMethod typeClass = .ok (some b)) :
    R (D.raise x) (D.raise (D.raise x)) (Site.testGuard a b guard) (Site.testGuard a b guard) := by
  obtain ⟨htypeof, hallocate, hclass, hconstruct, hsubtype⟩ := w.permits.guard hn ha hb
  have hdup : ∀ {z}, Emit .dup (D.raise z) (D.raise (D.raise z)) :=
    w.plain (n := 1) (k := 2) ⟨rfl, rfl⟩
  refine w.next rfl hdup (w.next rfl (htypeof _) (w.next rfl (hallocate _) (w.next rfl hdup ?_)))
  refine w.next rfl (hclass _) (w.next rfl (hconstruct _) ?_)
  exact w.next rfl (w.plain (n := 1) (k := 0) ⟨rfl, rfl⟩) (w.next rfl (hsubtype _) (w.pure ()))

/-! ## Expressions -/

mutual

theorem lower : ∀ (e : Expr) {regions regions' : List Region} (mode : Mode) {x : F}, e.All N →
    D.Flat ∨ e.CleanupsValued mode → SameRegions D R regions regions' x →
    R x (D.lift mode x) (site.lower e regions mode) ((site.later q o).lower e regions' mode)
  | .literal _ _, _, _, mode, _, he, _, _ =>
    w.bind (w.literal (Expr.all_literal.mp he)) fun _ => w.discard mode
  | .uninitialized _, _, _, mode, _, _, _, _ =>
    w.bind (w.push ⟨rfl, rfl⟩) fun _ => w.discard mode
  | .self _, _, _, mode, x, _, _, _ => by
    rw [Site.lower, Site.lower,
      show (site.later q o).function.receiver? = site.function.receiver? from rfl]
    cases h : site.function.receiver? with
    | none => exact w.stop rfl
    | some _ =>
      exact w.bind (w.emit rfl (w.permits.receiver (by rw [h]; rfl) x)) fun _ => w.discard mode
  | .variable _ d, _, _, mode, _, _, _, _ =>
    w.bind (w.loadVariable d) fun _ => w.discard mode
  | .field _ a d, _, _, mode, _, he, hc, hr =>
    w.bind (lower a .value (Expr.all_field.mp he).2 hc hr) fun _ =>
      w.bind (w.loadField d) fun _ => w.discard mode
  | .assign _ target value, _, _, mode, _, he, hc, hr => by
    obtain ⟨_, ht, hv⟩ := Expr.all_assign.mp he
    have hcv := hc.imp_right And.right
    have hty := w.permits.exprTy ht.node
    cases target with
    | «variable» ty d =>
      exact w.bind (lower value .value hv hcv hr) fun _ => w.bind (w.coerce hty) fun _ =>
        w.bind (w.dupIfValue mode) fun _ => w.storeVariable _
    | field ty r d =>
      exact w.bind (lower r .value (Expr.all_field.mp ht).2 (hc.imp_right And.left) hr) fun _ =>
        w.bind (lower value .value hv hcv hr.raise) fun _ => w.bind (w.coerce hty) fun _ =>
          w.storeField _ mode
    | _ => exact w.stop rfl
  | .compound _ op target value, _, _, mode, _, he, hc, hr => by
    obtain ⟨_, ht, hv⟩ := Expr.all_compound.mp he
    have hcv := hc.imp_right And.right
    cases target with
    | «variable» ty d =>
      exact w.binaryInst fun i hi => w.bind (w.loadVariable _) fun _ =>
        w.bind (lower value .value hv hcv hr.raise) fun _ => w.bind (hi _) fun _ =>
          w.bind (w.dupIfValue mode) fun _ => w.storeVariable _
    | field ty r d =>
      refine w.binaryInst fun i hi => ?_
      refine w.bind (lower r .value (Expr.all_field.mp ht).2 (hc.imp_right And.left) hr) fun _ => ?_
      refine w.bind w.dup fun _ => w.bind (w.loadField _) fun _ => ?_
      exact w.bind (lower value .value hv hcv hr.raise.raise) fun _ => w.bind (hi _) fun _ =>
        w.storeField _ mode
    | _ => exact w.binaryInst fun _ _ => w.stop rfl
  | .initField _ receiver d value, _, _, mode, _, he, hc, hr => by
    obtain ⟨_, hv, hrec⟩ := Expr.all_initField.mp he
    refine w.bind (lower value .value hv (hc.imp_right And.right) hr) fun _ => ?_
    refine w.bind_of (w.defnAt w.source d) fun defn _ _ hd => ?_
    refine w.bind (w.coerce (w.permits.defnTy d defn (gives_lift.mp hd).1)) fun _ => ?_
    exact w.bind (lower receiver .value hrec (hc.imp_right And.left) hr.raise) fun _ =>
      w.bind (w.initField d) fun _ => w.unitIfValue mode
  | .binary _ op left right, _, _, mode, _, he, hc, hr => by
    obtain ⟨_, hl, hright⟩ := Expr.all_binary.mp he
    exact w.bind (lower left .value hl (hc.imp_right And.left) hr) fun _ =>
      w.bind (lower right .value hright (hc.imp_right And.right) hr.raise) fun _ =>
        w.binaryInst fun i hi => w.bind (hi _) fun _ => w.discard mode
  | .unary _ op operand, _, _, mode, _, he, hc, hr =>
    w.bind (lower operand .value (Expr.all_unary.mp he).2 hc hr) fun _ =>
      w.bind_of (w.orFail ..) fun i _ _ hi =>
        w.bind (w.step (n := 1) (k := 1) (UnaryOp.isPlain_inst (Site.gives_orFail.mp hi).1)) fun _ =>
          w.discard mode
  | .convert ty operand, _, _, mode, x, he, hc, hr => by
    refine w.bind (lower operand .value (Expr.all_convert.mp he).2 hc hr) fun _ => ?_
    refine w.bind_of (w.orFail ..) fun _ _ _ hi => w.bind (w.emitAll fun i h => ?_) fun _ => w.discard mode
    have hi := isPlain_conversion (Site.gives_orFail.mp hi).1 i h
    exact ⟨hi.isTerminator, w.plain (n := 1) (k := 1) (x := x) hi⟩
  | .and _ left right, _, _, mode, _, he, hc, hr => by
    obtain ⟨_, hl, hright⟩ := Expr.all_and.mp he
    exact w.bind (lower left .value hl (hc.imp_right And.left) hr) fun _ =>
      w.bind (w.shortCircuit true (lower right .value hright (hc.imp_right And.right) hr)) fun _ =>
        w.discard mode
  | .or _ left right, _, _, mode, _, he, hc, hr => by
    obtain ⟨_, hl, hright⟩ := Expr.all_or.mp he
    exact w.bind (lower left .value hl (hc.imp_right And.left) hr) fun _ =>
      w.bind (w.shortCircuit false (lower right .value hright (hc.imp_right And.right) hr)) fun _ =>
        w.discard mode
  | .block _ stmts, _, _, mode, _, he, hc, hr =>
    lowerStmts stmts mode (Expr.all_block.mp he).2 hc hr
  | .cond _ test onTrue none, _, _, mode, _, he, hc, hr => by
    obtain ⟨_, ht, ho⟩ := Expr.all_when.mp he
    exact w.bind (lower test .value ht (hc.imp_right And.left) hr) fun _ =>
      w.oneArm mode (lower onTrue .effect ho (hc.imp_right And.right) hr)
  | .cond _ test onTrue (some onFalse), _, _, mode, _, he, hc, hr => by
    obtain ⟨_, ht, ho, hf⟩ := Expr.all_cond.mp he
    exact w.bind (lower test .value ht (hc.imp_right And.left) hr) fun _ =>
      w.twoArms (lower onTrue mode ho (hc.imp_right fun h => h.2.1) hr)
        (lower onFalse mode hf (hc.imp_right fun h => h.2.2) hr)
  | .loop _ test body, _, _, mode, _, he, hc, hr => by
    obtain ⟨hn, ht, hbody⟩ := Expr.all_loop.mp he
    exact w.loop mode hn (lower test .value ht (hc.imp_right And.left) hr)
      (lower body .effect hbody (hc.imp_right And.right) hr)
  | .call _ f tys args, _, _, mode, x, he, hc, hr => by
    obtain ⟨hnode, hargs⟩ := Expr.all_call.mp he
    obtain ⟨htys, hcall⟩ := w.permits.call hnode
    refine w.bind (lowerArgs args hargs hc hr) fun _ => w.bind (w.emitTys htys) fun _ => ?_
    rw [← Function.iterate_add_apply]
    exact w.bind (w.emit rfl (hcall x)) fun _ => w.discard mode
  | .invoke _ receiver method tys args, _, _, mode, x, he, hc, hr => by
    obtain ⟨hnode, hrec, hargs⟩ := Expr.all_invoke.mp he
    obtain ⟨htys, hcall⟩ := w.permits.invoke hnode
    refine w.bind (lower receiver .value hrec (hc.imp_right And.left) hr) fun _ => ?_
    refine w.bind (lowerArgs args hargs (hc.imp_right And.right) hr.raise) fun _ => ?_
    refine w.emitOwnerTys (w.permits.exprTy hrec.node) fun ownerArgs howner => ?_
    refine w.bind (w.emitTys htys) fun _ => w.bind_of (w.dispatch ..) fun i s t hi => ?_
    have hend : i.isTerminator = false := by
      rcases (Site.gives_dispatch hi).2 with rfl | ⟨slot, rfl⟩ <;> rfl
    have happlied := hcall ownerArgs i s t howner hi x
    rw [Function.iterate_add_apply, Function.iterate_add_apply] at happlied
    exact w.bind (w.emit hend happlied) fun _ => w.discard mode
  | .invokeSelf .., _, _, _, _, _, _, _ => w.functionAt w.source fun _ _ _ => w.stop rfl
  | .new ty cls f args, regions, regions', mode, x, he, hc, hr => by
    obtain ⟨hnode, hargs⟩ := Expr.all_new.mp he
    obtain ⟨hallocate, hcall⟩ := w.permits.new hnode
    have htys : ∀ t ∈ (ty.classTy?.map ClassTy.args).getD [], Y t := by
      have hty : Y ty := w.permits.exprTy hnode
      cases ty <;> first | exact (w.permits.object hty).1 | (intro t ht; cases ht)
    refine w.bind (w.emitTys htys) fun _ => w.bind (w.emit rfl (hallocate x)) fun _ => ?_
    refine w.bind (w.dupIfValue mode) fun _ => ?_
    have hr' : SameRegions D R regions regions' (D.raise (D.lift mode x)) := by
      cases mode with
      | value => exact hr.raise.raise
      | effect => exact hr.raise
    refine w.bind (lowerArgs args hargs hc hr') fun _ => w.bind (w.emitTys htys) fun _ => ?_
    have happlied := hcall (D.lift mode x)
    rw [Function.iterate_add_apply] at happlied
    exact w.next rfl happlied (w.next rfl (w.plain (n := 1) (k := 0) ⟨rfl, rfl⟩) (w.pure ()))
  | .functionValue .., _, _, _, _, _, _, _ =>
    w.functionAt w.source fun _ _ _ => w.stop rfl
  | .throw _ operand, _, _, _, _, he, hc, hr =>
    w.bind (lower operand .value (Expr.all_throw.mp he).2 hc hr) fun _ => w.throw
  | .ret _ none, _, _, _, _, _, _, hr => by
    obtain ⟨y, hy, hleave⟩ := w.leaveAll hr
    exact w.bind (w.push ⟨rfl, rfl⟩) fun _ => w.bind hleave fun _ => w.ret hy
  | .ret _ (some value), _, _, _, _, he, hc, hr => by
    obtain ⟨y, hy, hleave⟩ := w.leaveAll hr
    exact w.bind (lower value .value (Expr.all_ret.mp he).2 hc hr) fun _ =>
      w.bind (w.coerce w.permits.returnTy) fun _ => w.bind hleave fun _ => w.ret hy
  | .attempt _ body [] none, _, _, mode, _, he, hc, hr =>
    lower body mode (Expr.all_attempt_none.mp he).2.1 (hc.imp_right And.left) hr
  | .attempt _ body (clause :: rest) none, _, _, mode, x, he, hc, hr => by
    obtain ⟨_, hbody, hclauses⟩ := Expr.all_attempt_none.mp he
    refine w.protect (fun handler => ?_) (w.handlerSlots fun a b hslot hslot' => Tracked.Goes.thenEnds
      (lowerClauses hslot hslot' (clause :: rest) mode hclauses (hc.imp_right And.right) hr)
      fun _ _ _ _ _ _ => w.handlerEnd)
    rw [← D.lift_guard]
    exact lower body mode hbody (hc.imp_right And.left) (hr.bare w.toStraight handler)
  | .attempt _ body [] (some cleanup), regions, regions', mode, x, he, hc, hr => by
    obtain ⟨_, hbody, _, hcl⟩ := Expr.all_attempt.mp he
    have hcode := fun y (hy : SameRegions D R regions regions' y) =>
      lower cleanup .effect hcl (hc.imp_right fun h => h.2.2.2) hy
    have hsame := raise_lift (x := x) (hc.imp_right And.left)
    refine w.protect (fun handler => ?_) (w.cleanupEnd (hcode _ (hsame ▸ hr.raise.raise)) hsame)
    rw [← D.lift_guard]
    exact lower body mode hbody (hc.imp_right fun h => h.2.1) (hr.guarded hcode handler)
  | .attempt _ body (clause :: rest) (some cleanup), regions, regions', mode, x, he, hc, hr => by
    obtain ⟨_, hbody, hclauses, hcl⟩ := Expr.all_attempt.mp he
    have hcode := fun y (hy : SameRegions D R regions regions' y) =>
      lower cleanup .effect hcl (hc.imp_right fun h => h.2.2.2) hy
    have hsame := raise_lift (x := x) (hc.imp_right And.left)
    refine w.protect (fun handler => ?_) (w.handlerSlots fun a b hslot hslot' => Tracked.Goes.thenEnds
      (lowerClauses hslot hslot' (clause :: rest) mode hclauses (hc.imp_right fun h => h.2.2.1)
        (hr.handling hcode)) (w.cleanupEnd (hcode _ (hsame ▸ hr.raise.raise)) hsame))
    rw [← D.lift_guard]
    exact lower body mode hbody (hc.imp_right fun h => h.2.1) (hr.guarded hcode handler)

theorem lowerArgs : ∀ (args : List Expr) {regions regions' : List Region} {x : F},
    AllArgs N args → D.Flat ∨ ArgsValued args → SameRegions D R regions regions' x →
    R x (D.raise^[args.length] x) (site.lowerArgs args regions)
      ((site.later q o).lowerArgs args regions')
  | [], _, _, _, _, _, _ => w.pure ()
  | arg :: rest, _, _, _, ha, hc, hr =>
    w.bind (lower arg .value (allArgs_cons.mp ha).1 (hc.imp_right And.left) hr) fun _ =>
      lowerArgs rest (allArgs_cons.mp ha).2 (hc.imp_right And.right) hr.raise

theorem lowerStmts : ∀ (stmts : List Stmt) {regions regions' : List Region} (mode : Mode) {x : F},
    AllStmts N stmts → D.Flat ∨ StmtsValued stmts mode → SameRegions D R regions regions' x →
    R x (D.lift mode x) (site.lowerStmts stmts regions mode)
      ((site.later q o).lowerStmts stmts regions' mode)
  | [], _, _, mode, _, _, _, _ => w.unitIfValue mode
  | [.expr e], _, _, mode, _, hs, hc, hr => lower e mode (allStmts_expr.mp hs).2.1 hc hr
  | .expr e :: next :: rest, _, _, mode, _, hs, hc, hr => by
    obtain ⟨_, he, hrest⟩ := allStmts_expr.mp hs
    exact w.bind (lower e .effect he (hc.imp_right And.left) hr) fun _ =>
      lowerStmts (next :: rest) mode hrest (hc.imp_right And.right) hr
  | .declare _ none :: rest, _, _, mode, _, hs, hc, hr =>
    lowerStmts rest mode (allStmts_declare.mp hs).2 hc hr
  | .declare d (some init) :: rest, _, _, mode, _, hs, hc, hr => by
    obtain ⟨_, hi, hrest⟩ := allStmts_define.mp hs
    refine w.bind (lower init .value hi (hc.imp_right And.left) hr) fun _ => ?_
    refine w.bind_of (w.defnAt w.source d) fun defn _ _ hd => ?_
    refine w.bind (w.coerce (w.permits.defnTy d defn (gives_lift.mp hd).1)) fun _ => ?_
    refine w.bind_of (w.slot w.source d) fun i _ _ hslot => ?_
    exact w.bind (w.emit rfl ((w.permits.slot d i (Site.gives_slot.mp hslot).1).2 _)) fun _ =>
      lowerStmts rest mode hrest (hc.imp_right And.right) hr
  | .function _ :: rest, _, _, mode, _, hs, hc, hr =>
    lowerStmts rest mode (allStmts_function.mp hs).2 hc hr

theorem lowerClauses {a b : Nat}
    (ha : Site.slotIn? site.program typeofMethod objectClass = .ok (some a))
    (hb : Site.slotIn? site.program isSubtypeOfMethod typeClass = .ok (some b)) :
    ∀ (clauses : List Clause) {regions regions' : List Region} (mode : Mode) {x : F},
      AllClauses N clauses → D.Flat ∨ ClausesValued clauses mode → SameRegions D R regions regions' x →
      Tracked.Goes D L x (D.lift mode x) (site.lowerClauses a b clauses regions mode)
        ((site.later q o).lowerClauses a b clauses regions' mode)
  | [], _, _, _, _, _, _, _ => fun known _ _ _ _ _ _ _ _ _ hn hk => hk _ _ _ (.refl known) hn
  | .mk binding guard body :: rest, _, _, mode, _, hall, hc, hr => by
    obtain ⟨hn, he, hrest⟩ := allClauses_cons.mp hall
    exact w.clause (w.testGuard hn ha hb) (w.bindException binding)
      (lower body mode he (hc.imp_right And.left) hr)
      (lowerClauses ha hb rest mode hrest (hc.imp_right And.right) hr)

end

/-! ## Entries -/

theorem callOnReceiver (hself : Applies D Emit (.loadLocal 0) 0)
    (ho : R (D.raise x) (D.raise^[n] (D.raise x)) m m') (hf : Applies D Emit (.call f) (n + 1)) :
    R x x (Site.callOnReceiver f m) (Site.callOnReceiver f m') :=
  w.bind (w.emit rfl (hself x)) fun _ => w.bind ho fun _ =>
    w.next rfl (hf x) (w.next rfl (w.plain (n := 1) (k := 0) ⟨rfl, rfl⟩) (w.pure ()))

theorem emitTypeParams {params : List TypeParamId} (h : ∀ t ∈ params, Y (.variable t)) :
    R x (D.raise^[params.length] x) (Site.emitTypeParams params) (Site.emitTypeParams params) := by
  induction params generalizing x with
  | nil => exact w.pure ()
  | cons t rest ih =>
    obtain ⟨ht, hrest⟩ := List.forall_mem_cons.mp h
    exact w.next rfl (w.permits.typeVar ht x) (ih hrest)

theorem storeParams (hself : Applies D Emit (.loadLocal 0) 0) (pairs : List (DefnId × DefnId)) :
    R x x (pairs.forM fun (param, field) => site.storeParam param field)
      (pairs.forM fun (param, field) => (site.later q o).storeParam param field) := by
  induction pairs with
  | nil => exact w.pure ()
  | cons pair rest ih =>
    refine w.bind (m := site.storeParam pair.1 pair.2) ?_ fun _ => ih
    refine w.bind_of (w.slot w.source _) fun i _ _ hi => ?_
    exact w.bind (w.emit rfl ((w.permits.slot _ i (Site.gives_slot.mp hi).1).1 x)) fun _ =>
      w.bind (w.emit rfl (hself _)) fun _ => w.initField _

theorem chainOperands {args : List Expr} {tys tys' : Lower Unit} (ha : AllArgs N args) (hc : D.Flat ∨ ArgsValued args) (hx : D.IsBase x)
    (h : R (D.raise^[args.length] x) (D.raise^[n] (D.raise^[args.length] x)) tys tys') :
    R x (D.raise^[n + args.length] x) (site.lowerArgs args [] >>= fun _ => tys)
      ((site.later q o).lowerArgs args [] >>= fun _ => tys') := by
  rw [Function.iterate_add_apply]
  exact w.bind (w.lowerArgs args ha hc hx) fun _ => h

section

variable (hkind : site.function.kind = .constructor c)
include hkind

theorem ownInitialization {cls : ClassDecl} (hc : site.program.classAt c = .ok cls)
    (pairs : List (DefnId × DefnId)) :
    R x x (site.ownInitialization cls pairs) ((site.later q o).ownInitialization cls pairs) := by
  refine w.bind (w.storeParams (w.permits.self c hkind) pairs) fun _ => ?_
  split <;> rename_i hf
  · exact w.callOnReceiver (w.permits.self c hkind) (w.emitTypeParams (w.permits.typeParams c cls hc))
      (w.permits.initializer c cls _ hkind hc hf)
  · exact w.pure ()

theorem lowerChain (hx : D.IsBase x)
    (ha : AllArgs N (site.function.chain.getD .initial).call.args)
    (hc : D.Flat ∨ ArgsValued (site.function.chain.getD .initial).call.args) :
    R x x (site.lowerChain c) ((site.later q o).lowerChain c) := by
  refine w.bind_of (w.lift .entryAt (Program.source_classAt w.source c)) fun cls _ _ hcls => ?_
  have hcls := (gives_lift.mp hcls).1
  have hself := w.permits.self c hkind
  have hsuper : ∀ ty ∈ (cls.supertype.map ClassTy.args).getD [], Y ty := by
    cases hst : cls.supertype with
    | none => exact nofun
    | some st => exact w.permits.superArgs c cls st hcls hst
  have hcall := w.permits.chain c cls hkind hcls
  dsimp only
  rw [show (site.later q o).function.chain = site.function.chain from rfl]
  generalize site.function.chain.getD .initial = chain at ha hc hcall ⊢
  obtain ⟨call, fieldParams⟩ := chain
  cases call with
  | implicit =>
    dsimp only
    split <;> rename_i hst
    · rw [hst] at hsuper
      refine w.bind_of (w.lift (.defaultConstructor _ _)
        (Program.source_defaultConstructor w.source _)) fun f _ _ hf => ?_
      exact w.bind (w.callOnReceiver hself (w.emitTys hsuper)
        (w.permits.superCall c cls _ f hkind hcls hst (gives_lift.mp hf).1)) fun _ =>
          w.ownInitialization hkind hcls _
    · exact w.ownInitialization hkind hcls _
  | super f args =>
    refine w.bind (w.callOnReceiver hself
      (w.chainOperands ha hc (D.isBase_raise x hx) (w.emitTys hsuper)) ?_) fun _ =>
        w.ownInitialization hkind hcls _
    rw [Nat.add_assoc]
    exact hcall
  | sibling f args =>
    refine w.callOnReceiver hself (w.chainOperands ha hc (D.isBase_raise x hx)
      (w.emitTypeParams (w.permits.typeParams c cls hcls))) ?_
    rw [Nat.add_assoc]
    exact hcall

end

/-- The code of a function starts from the base and does not fall through. -/
theorem lowerEntry (hx : D.IsBase x)
    (he : ∀ e ∈ site.function.exprs, e.All N) (hc : D.Flat ∨ site.function.CleanupsValued) :
    R x y site.lowerEntry (site.later q o).lowerEntry := by
  have hbody : ∀ e ∈ site.function.body, e.All N := fun e h =>
    he e (List.mem_append_left _ (Option.mem_toList.mpr h))
  have hargs : AllArgs N (site.function.chain.getD .initial).call.args := by
    cases hchain : site.function.chain with
    | none => exact allArgs_iff.mpr nofun
    | some chain =>
      refine allArgs_iff.mpr fun e h => he e (List.mem_append_right _ ?_)
      rw [hchain]
      exact h
  have hend : R x y (Lower.emit .unit >>= fun _ => Lower.terminate .ret)
      (Lower.emit .unit >>= fun _ => Lower.terminate .ret) :=
    w.bind (w.push ⟨rfl, rfl⟩) fun _ => w.ret hx
  unfold Site.lowerEntry Site.lowerConstructor
  rw [show (site.later q o).function.kind = site.function.kind from rfl,
    show (site.later q o).function.body = site.function.body from rfl]
  have hvalued := hc.imp_right And.right
  generalize site.function.body = body at hbody hvalued ⊢
  cases hkind : site.function.kind
  case constructor c =>
    rw [hkind] at hvalued
    refine w.bind (w.lowerChain hkind hx hargs (hc.imp_right And.left)) fun _ => ?_
    cases body
    · exact hend
    · exact w.bind (w.lower _ .effect (hbody _ rfl) (hvalued.imp_right fun h => h _ rfl) hx)
        fun _ => hend
  all_goals
    rw [hkind] at hvalued
    cases body
    · exact w.stop rfl
    · exact w.bind (w.lower _ .value (hbody _ rfl) (hvalued.imp_right fun h => h _ rfl) hx) fun _ =>
        w.bind (w.coerce w.permits.returnTy) fun _ => w.ret hx

end

end Walks

/-! ## Everywhere -/

theorem Loose.walks (w : Loose D Emit R L) (hp : Permits site D N Y Emit) (hq : q.source = site.program.source)
    (hs : ∀ {ty text x}, N (.expr (.literal ty (.string text))) →
      R x (D.raise x) (Lower.emitString text) (Lower.emitString text)) :
    Walks site q D N Y Emit R L where
  toTracked := w.toTracked
  permits := hp
  source := hq
  string := hs
  loop mode _ := w.loop mode

namespace Composes

theorem walks (w : Composes D Emit R L) (hp : Permits site D N Y Emit)
    (hq : q.source = site.program.source) : Walks site q D N Y Emit R L where
  toTracked := w.toTracked
  permits := hp
  source := hq
  string _ := w.emitString _
  loop mode _ := w.loop mode

theorem lowerEntry (w : Composes D Emit R L) (hD : D.Flat) (hx : D.IsBase x)
    (hp : Permits site D N Y Emit) (he : ∀ e ∈ site.function.exprs, e.All N)
    (hq : q.source = site.program.source) (o : Option Body) : R x y site.lowerEntry
      (site.later q o).lowerEntry :=
  (w.walks hp hq).lowerEntry hx he (.inl hD)

end Composes

theorem Discipline.flat_free : Discipline.free.Flat := fun _ => rfl

theorem SameRegions.refl {R : Relation Unit}
    {Emit : Inst → Unit → Unit → Prop} (w : Straight .free Emit R) :
    ∀ {regions : List Region}, (∀ r ∈ regions, ∀ code ∈ r.cleanup, R () () code code) →
      SameRegions .free R regions regions ()
  | [], _ => trivial
  | r :: rs, h => by
    obtain ⟨hr, hrs⟩ := List.forall_mem_cons.mp h
    have hrest := SameRegions.refl w hrs
    refine ⟨rfl, fun _ _ => ?_, ?_⟩
    · cases hc : r.cleanup with
      | none => exact w.pure ()
      | some code => exact hr code hc
    · split
      · exact ⟨⟨0⟩, (), rfl, hrest⟩
      · exact hrest

theorem Composes.lower {R : Relation Unit} {L : Tracking Unit}
    (w : Composes .free (fun _ _ _ => True) R L) (site : Site) (e : Expr) (mode : Mode)
    (hr : ∀ r ∈ regions, ∀ code ∈ r.cleanup, R () () code code) :
    R () () (site.lower e regions mode) (site.lower e regions mode) := by
  have h := (w.walks (N := fun _ => True) (.all site _ _ fun _ _ _ _ => trivial) rfl).lower (o := site.function.lowered)
    e mode (fun _ _ => trivial) (.inl Discipline.flat_free) (.refl w.toStraight hr)
  exact h

end StackBackend
