import StackBackend.Proofs.Lowering.Gives
import StackBackend.Proofs.Program.SameSource

/-! What lowering asks the program, and the instructions that it need not ask for. An answer has
nothing to do with blocks or with code. -/

namespace StackBackend

variable {i : Inst} {is : List Inst} {ty : Ty}

/-- A fault that only finishing the blocks can raise. -/
def Fault.isBlockFault : Fault → Bool
  | .rejected (.unterminatedBlock ..) | .rejected (.invalidBranchTarget ..) => true
  | _ => false

variable {α β : Type}

/-! ## Questions to the program -/

namespace Checked

/-- A question fails for reasons that have nothing to do with blocks. -/
def Clean (x : Checked α) : Prop := ∀ e, x = .error e → e.isBlockFault = false

namespace Clean

theorem pure (a : α) : Clean (pure a : Checked α) := fun _ h => nomatch h

theorem bind {x : Checked α} {f : α → Checked β} (hx : Clean x) (hf : ∀ a, Clean (f a)) :
    Clean (x >>= f) := by
  intro e h
  cases x with
  | error e' => cases h; exact hx _ rfl
  | ok a => exact hf a e h

theorem entryAt {table : Table} {entries : Array α} {index : Nat} :
    Clean (entryAt table entries index) := by
  intro e h
  unfold StackBackend.entryAt at h
  split at h
  · cases h
  · cases h; rfl

theorem superclassWalk (p : Program) (target : ClassId) (steps : Nat) :
    ∀ ty, Clean (p.instantiateWithin target steps ty) := by
  induction steps with
  | zero => intro ty; exact pure _
  | succ steps ih =>
    intro ty
    rw [Program.instantiateWithin]
    split
    · exact pure _
    · refine bind entryAt fun cls => ?_
      split
      · exact pure _
      · exact ih _

theorem slotIn (p : Program) (method : FunctionId) (c : ClassId) :
    Clean (Site.slotIn? p method c) :=
  bind entryAt fun _ => pure _

theorem firstSlot (p : Program) (method : FunctionId) (classes : List ClassId) :
    Clean (Site.firstSlot? p method classes) := by
  induction classes with
  | nil => exact pure _
  | cons c rest ih =>
    refine bind (slotIn p method c) fun found => ?_
    split
    · exact pure _
    · exact ih

theorem hasFinalClass (p : Program) (receiver : Ty) : Clean (Site.hasFinalClass p receiver) := by
  unfold Site.hasFinalClass
  split
  · exact bind entryAt fun _ => pure _
  · exact pure _

theorem findM {f : α → Checked Bool} (hf : ∀ a, Clean (f a)) (xs : List α) :
    Clean (xs.findM? f) := by
  induction xs with
  | nil => exact pure _
  | cons x rest ih =>
    rw [List.findM?]
    refine bind (hf x) fun b => ?_
    cases b
    · exact ih
    · exact pure _

theorem defaultConstructor (p : Program) (c : ClassId) : Clean (p.defaultConstructor c) := by
  refine bind entryAt fun cls => ?_
  refine bind (findM (fun f => bind entryAt fun _ => pure _) _) fun found => ?_
  split
  · exact pure _
  · intro e h; cases h; rfl

end Clean

end Checked

/-! ## Plain instructions -/

/-- The instruction refers to a slot, a table or the string pool. -/
def Inst.hasOperand : Inst → Bool
  | .loadLocal _ | .storeLocal _ | .loadGlobal _ | .storeGlobal _ | .string _ | .allocate _
  | .allocateArray .. | .classRef _ | .classType _ | .typeVar _ | .call _ | .callVirtual .. =>
    Bool.true
  | _ => Bool.false

/-- How many values an instruction takes from the stack and how many it leaves there. Those
that take what was pushed for them are not listed, nor are those that end a block. -/
def Inst.counts? : Inst → Option (Nat × Nat)
  | .nop => some (0, 0)
  | .drop | .storeLocal _ | .storeGlobal _ => some (1, 0)
  | .dup => some (1, 2)
  | .dupAt depth => some (depth + 1, depth + 2)
  | .swap => some (2, 2)
  | .swap2 => some (3, 3)
  | .unit | .true | .false | .null | .uninitialized | .i8 _ | .i16 _ | .i32 _ | .i64 _ | .f32 _
  | .f64 _ | .string _ | .loadLocal _ | .loadGlobal _ | .allocateArray .. | .classRef _
  | .typeVar _ => some (0, 1)
  | .load8 _ | .load16 _ | .load32 _ | .load64 _ | .loadPointer _ | .loadPointerChecked _
  | .notBool | .convert _ => some (1, 1)
  | .store8 _ | .store16 _ | .store32 _ | .store64 _ | .storePointer _ => some (2, 0)
  | .cast | .sameObject | .notSameObject => some (2, 1)
  | .int op _ => some (if op.isUnary then 1 else 2, 1)
  | .float op _ => some (if op = .neg then 1 else 2, 1)
  | .allocate _ | .classType _ | .call _ | .callVirtual .. => none
  | .ret | .branch _ | .branchIf .. | .pushTry .. | .popTry _ | .throw => none

/-- The instruction refers to nothing. It takes values from the stack and leaves others. -/
def Inst.IsPlain (i : Inst) (taken left : Nat) : Prop :=
  i.hasOperand = Bool.false ∧ i.counts? = some (taken, left)

theorem Inst.isTerminator_of_counts {n : Nat × Nat} (h : i.counts? = some n) :
    i.isTerminator = Bool.false := by
  cases i <;> first | rfl | cases h

theorem Inst.IsPlain.isTerminator {n k : Nat} (h : i.IsPlain n k) : i.isTerminator = Bool.false :=
  isTerminator_of_counts h.2

theorem Storage.isPlain_load (storage : Storage) (nullable : Bool) (index : Nat) :
    (storage.load nullable index).IsPlain 1 1 := by
  cases storage <;> cases nullable <;> exact ⟨rfl, rfl⟩

theorem Storage.isPlain_store (storage : Storage) (index : Nat) :
    (storage.store index).IsPlain 2 0 := by
  cases storage <;> exact ⟨rfl, rfl⟩

theorem BinaryOp.isPlain_inst {op : BinaryOp} (h : op.inst? ty = some i) : i.IsPlain 2 1 := by
  unfold inst? at h
  split at h
  · cases h
    cases op <;> exact ⟨rfl, rfl⟩
  · cases op <;> cases h <;> exact ⟨rfl, rfl⟩
  · unfold otherInst? at h
    split at h <;>
      first | (cases h; exact ⟨rfl, rfl⟩) | (split at h <;> cases h <;> exact ⟨rfl, rfl⟩) | cases h

theorem UnaryOp.isPlain_inst {op : UnaryOp} (h : op.inst? ty = some i) : i.IsPlain 1 1 := by
  unfold inst? at h
  split at h <;>
    first | (cases h; exact ⟨rfl, rfl⟩) | (split at h <;> cases h; exact ⟨rfl, rfl⟩) | cases h

theorem isPlain_resizeInt {source target : IntWidth} :
    ∀ i ∈ resizeInt source target, i.IsPlain 1 1 := by
  intro i hi
  unfold resizeInt at hi
  split at hi
  · rw [List.mem_singleton.mp hi]; exact ⟨rfl, rfl⟩
  · split at hi
    · rw [List.mem_singleton.mp hi]; exact ⟨rfl, rfl⟩
    · cases hi

theorem isPlain_conversion {source target : Ty}
    (h : conversion? source target = some is) : ∀ i ∈ is, i.IsPlain 1 1 := by
  unfold conversion? at h
  split at h
  · cases h; intro i hi; cases hi
  · split at h
    · cases h; exact isPlain_resizeInt
    · cases h
      exact List.forall_mem_cons.mpr ⟨⟨rfl, rfl⟩, isPlain_resizeInt⟩
    · cases h
      exact List.forall_mem_append.mpr ⟨isPlain_resizeInt, List.forall_mem_singleton.mpr ⟨rfl, rfl⟩⟩
    · cases h; exact List.forall_mem_singleton.mpr ⟨rfl, rfl⟩
    · cases h; exact List.forall_mem_singleton.mpr ⟨rfl, rfl⟩
    · cases h

/-! ## Programs with code -/

namespace Program

variable {p q : Program} (h : q.source = p.source)
include h

theorem source_slotIn? (method : FunctionId) (c : ClassId) :
    Site.slotIn? q method c = Site.slotIn? p method c := by
  unfold Site.slotIn?
  rw [source_classAt h]

theorem source_firstSlot? (method : FunctionId) (classes : List ClassId) :
    Site.firstSlot? q method classes = Site.firstSlot? p method classes := by
  induction classes with
  | nil => rfl
  | cons c rest ih => simp only [Site.firstSlot?, source_slotIn? h, ih]

theorem source_hasFinalClass (receiver : Ty) :
    Site.hasFinalClass q receiver = Site.hasFinalClass p receiver := by
  unfold Site.hasFinalClass
  simp only [source_classAt h]

theorem source_defaultConstructor (c : ClassId) :
    q.defaultConstructor c = p.defaultConstructor c := by
  have htest : ∀ f, (do pure ((← q.functionAt f).params.length == 1) : Checked Bool) =
      (do pure ((← p.functionAt f).params.length == 1)) :=
    fun f => bind_source_functionAt h fun _ _ => rfl
  unfold defaultConstructor
  simp only [source_classAt h, htest]

end Program

/-- What holds of the arguments of a class type, and of what supertypes give for such arguments,
holds of those for a superclass. -/
theorem Program.instantiateWithin_keeps {p : Program} {target : ClassId} {Q : List Ty → Prop}
    (hstep : ∀ {c cls st args}, p.classAt c = .ok cls → cls.supertype = some st → Q args →
      Q (st.args.map (·.substitute cls.typeParams args))) (steps : Nat) :
    ∀ {ty : ClassTy} {args : List Ty}, Q ty.args →
      p.instantiateWithin target steps ty = .ok (some args) → Q args := by
  induction steps with
  | zero => intro ty args _ h; cases h
  | succ steps ih =>
    intro ty args hty h
    rw [instantiateWithin] at h
    split at h
    · cases h; exact hty
    · obtain ⟨cls, hc, h⟩ := Checked.bind_eq_ok.mp h
      split at h
      · cases h
      · rename_i st hst
        exact ih (hstep hc hst hty) h

end StackBackend
