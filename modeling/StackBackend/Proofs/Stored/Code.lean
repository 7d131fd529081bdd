import StackBackend.Stored.Inst
import StackBackend.Proofs.Stored.Terms

/-! Instructions and lowered bodies survive storage, constants with a fraction
excepted. -/

namespace StackBackend

open Json (Survives)

theorem IntWidth.survives (w : IntWidth) : Survives toJson ofJson? w :=
  .of_plain rfl (by cases w <;> rfl)

theorem FloatWidth.survives (w : FloatWidth) : Survives toJson ofJson? w :=
  .of_plain rfl (by cases w <;> rfl)

theorem IntOp.survives (op : IntOp) : Survives toJson ofJson? op :=
  .of_plain rfl (by cases op <;> rfl)

theorem FloatOp.survives (op : FloatOp) : Survives toJson ofJson? op :=
  .of_plain rfl (by cases op <;> rfl)

theorem Conversion.survives (c : Conversion) : Survives toJson ofJson? c := by
  cases c with
  | truncate w => exact .of_payload w.survives rfl (fun _ => rfl) rfl
  | signExtend target source =>
    exact .of_tagged rfl ⟨target.survives.writable, source.survives.writable, trivial⟩
      (Json.read₂ target.survives.read source.survives.read rfl)
  | narrowFloat | widenFloat => exact .of_plain rfl rfl
  | floatToInt w | intToFloat w => exact .of_payload w.survives rfl (fun _ => rfl) rfl

theorem IsSlot.survives {n : Int} (h : IsSlot n) : Survives .ofInt (Literal.signed? 32) n :=
  .int h.1 h.2

namespace Inst

/-- The operands fit the stored form, and no constant has a fraction. -/
def Fits : Inst → Prop
  | .f32 _ | .f64 _ => False
  | .branch b | .popTry b => b.Fits
  | .branchIf a b | .pushTry a b => a.Fits ∧ b.Fits
  | .dupAt n | .string n | .loadGlobal n | .storeGlobal n | .load8 n | .load16 n | .load32 n
  | .load64 n | .loadPointer n | .loadPointerChecked n | .store8 n | .store16 n | .store32 n
  | .store64 n | .storePointer n => IsWord n
  | .loadLocal s | .storeLocal s => IsSlot s
  | .allocate c | .classRef c | .classType c => c.Fits
  | .allocateArray c n => c.Fits ∧ IsWord n
  | .typeVar t => t.Fits
  | .call f => f.Fits
  | .callVirtual argc slot => IsWord argc ∧ IsWord slot
  | _ => True

theorem ofJson?_tagged {name : String} (hname : plainOfName? name = none) (v : Json) :
    ofJson? (.tagged name v) = ofPayload? name v := by
  have hplain : (Json.tagged name v).plainVariant?.bind plainOfName? = none := by
    cases v <;> simp [Json.plainVariant?, Json.variant?, Json.tagged, hname]
  rw [ofJson?, hplain]
  rfl

theorem survives_of_operand {α : Type} {encode : α → Json} {decode : Json → Option α} {a : α}
    {inst : Inst} {name : String} {make : α → Inst} (ha : Survives encode decode a)
    (hform : inst.toJson = .tagged name (encode a)) (hname : plainOfName? name = none)
    (hread : ∀ v, ofPayload? name v = (decode v).map make) (hmake : make a = inst) :
    Survives toJson ofJson? inst :=
  .of_payload ha hform (fun v => (ofJson?_tagged hname v).trans (hread v)) hmake

theorem Fits.survives {inst : Inst} (h : inst.Fits) : Survives toJson ofJson? inst := by
  cases inst with
  | f32 | f64 => cases h
  | branch b | popTry b =>
    exact survives_of_operand (Ref.Fits.survives h) rfl rfl (fun _ => rfl) rfl
  | branchIf a b =>
    exact survives_of_operand (.pair (p := (a, b)) (Ref.Fits.survives h.1) (Ref.Fits.survives h.2))
      rfl rfl (fun _ => rfl) rfl
  | pushTry a b =>
    exact survives_of_operand (.pair (p := (a, b)) (Ref.Fits.survives h.1) (Ref.Fits.survives h.2))
      rfl rfl (fun _ => rfl) rfl
  | dupAt n | string n | loadGlobal n | storeGlobal n | load8 n | load16 n | load32 n | load64 n
  | loadPointer n | loadPointerChecked n | store8 n | store16 n | store32 n | store64 n
  | storePointer n =>
    exact survives_of_operand (IsWord.survives h) rfl rfl (fun _ => Option.map_eq_bind.symm) rfl
  | i8 n => exact survives_of_operand (Literal.survives_i8 n) rfl rfl (fun _ => rfl) (by simp)
  | i16 n => exact survives_of_operand (Literal.survives_i16 n) rfl rfl (fun _ => rfl) (by simp)
  | i32 n => exact survives_of_operand (Literal.survives_i32 n) rfl rfl (fun _ => rfl) (by simp)
  | i64 n => exact survives_of_operand (Literal.survives_i64 n) rfl rfl (fun _ => rfl) (by simp)
  | loadLocal s | storeLocal s =>
    exact survives_of_operand (IsSlot.survives h) rfl rfl (fun _ => rfl) rfl
  | allocate c | classRef c | classType c | typeVar c | call c =>
    exact survives_of_operand (Ref.Fits.survives h) rfl rfl (fun _ => rfl) rfl
  | allocateArray c n =>
    exact survives_of_operand (.pair (p := (c, n)) (Ref.Fits.survives h.1) (IsWord.survives h.2))
      rfl rfl (fun _ => rfl) rfl
  | callVirtual argc slot =>
    have hargc := IsWord.survives h.1
    have hslot := IsWord.survives h.2
    exact .of_tagged rfl ⟨hargc.writable, hslot.writable, trivial⟩
      (Json.read₂ hargc.read hslot.read rfl)
  | int op w =>
    exact survives_of_operand (.pair (p := (op, w)) op.survives w.survives) rfl rfl
      (fun _ => rfl) rfl
  | float op w =>
    exact survives_of_operand (.pair (p := (op, w)) op.survives w.survives) rfl rfl
      (fun _ => rfl) rfl
  | convert c => exact survives_of_operand c.survives rfl rfl (fun _ => rfl) rfl
  | _ => exact .of_plain rfl rfl

end Inst

namespace Block

def Fits (b : Block) : Prop := b.id.Fits ∧ ∀ inst ∈ b.instructions, inst.Fits

theorem Fits.survives {b : Block} (h : b.Fits) : Survives toJson ofJson? b := by
  have hinsts : Survives _ _ b.instructions := .list fun inst hinst => (h.2 inst hinst).survives
  exact .of_object rfl ⟨h.1.survives.writable, hinsts.writable, trivial⟩
    (Json.read₂ h.1.survives.read hinsts.read rfl)

end Block

namespace LocalSlot

structure Fits (s : LocalSlot) : Prop where
  defn : s.defn.Fits
  ty : s.ty.Fits
  slot : IsSlot s.slot

theorem Fits.survives {s : LocalSlot} (h : s.Fits) : Survives toJson ofJson? s := by
  exact .of_object rfl ⟨h.defn.survives.writable, trivial, h.ty.survives.writable,
    h.slot.survives.writable, trivial⟩
    (Json.read₃ h.defn.survives.read h.ty.survives.read h.slot.survives.read rfl)

end LocalSlot

namespace Body

structure Fits (b : Body) : Prop where
  params : ∀ s ∈ b.params, s.Fits
  locals : ∀ s ∈ b.locals, s.Fits
  blocks : ∀ block ∈ b.blocks, block.Fits

theorem Fits.survives {b : Body} (h : b.Fits) : Survives toJson ofJson? b := by
  have hparams : Survives _ _ b.params := .list fun s hs => (h.params s hs).survives
  have hlocals : Survives _ _ b.locals := .list fun s hs => (h.locals s hs).survives
  have hblocks : Survives _ _ b.blocks := .list fun block hb => (h.blocks block hb).survives
  exact .of_object rfl ⟨hparams.writable, hlocals.writable, hblocks.writable, trivial⟩
    (Json.read₃ hparams.read hlocals.read hblocks.read rfl)

end Body

end StackBackend
