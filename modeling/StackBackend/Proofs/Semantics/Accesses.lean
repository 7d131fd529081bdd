import StackBackend.Proofs.Semantics.Straight

/-! Variables, casts and fields. A variable is found in its slot, and a field where the
class that declares it keeps it, provided that all classes below keep it there too. -/

namespace StackBackend

open Lower
open Meaning (read_eq_some write_eq_some)

variable {I : Image} {site : Site} {regions : List Region} {d : DefnId} {v r : Value}
variable {i : Inst} {place : Nat × Storage} {ty : Ty} {w : World} {α β : Type}

theorem Meaning.need_some_bind (a : α) (f : α → Meaning β) :
    (need (some a) >>= f) = f a := rfl

theorem Meaning.need_bind (x : Option α) (f : α → Option β) :
    need (x >>= f) = (need x >>= fun a => need (f a)) := by
  funext σ
  cases x <;> rfl

namespace Image

/-- The machine runs the code of the function that is being lowered. -/
structure Hosts (I : Image) (site : Site) : Prop where
  program : I.machine.program = site.program
  slots : I.slots = site.slots
  /-- No two variables share a slot. -/
  distinct : ∀ {d d' i}, Site.slotOf? site.slots d = some i → Site.slotOf? site.slots d' = some i →
    d = d'

namespace Hosts

variable (h : I.Hosts site)
include h

theorem defn? {defn : Definition} (hd : site.program.defnAt d = .ok defn) :
    I.machine.defn? d = some defn := by
  unfold Runtime.defn?
  rw [h.program]
  exact entryAt_eq_ok.mp hd

theorem agrees_update {σ : Source} {m : Memory} {i : Int} (ha : I.Agrees σ m)
    (hi : Site.slotOf? site.slots d = some i) (v : Value) :
    I.Agrees { σ with vars := Function.update σ.vars d v }
      { m with frame := Function.update m.frame i v } where
  world := ha.world
  vars d' i' hi' := by
    rw [h.slots] at hi'
    by_cases hd : d' = d
    · subst hd
      rw [hi] at hi'
      cases hi'
      simp
    · have hne : i' ≠ i := by
        rintro rfl
        exact hd (h.distinct hi' hi)
      dsimp only
      rw [Function.update_of_ne hne, Function.update_of_ne hd]
      exact ha.vars d' i' (by rw [h.slots]; exact hi')

end Hosts

namespace Realizes

/-! ## Variables -/

theorem loadLocal (h : I.Hosts site) :
    I.Realizes regions [] (do Lower.emit (.loadLocal (← site.slot d)))
      (Meaning.read fun σ => some (σ.vars d)) fun v => [v] := by
  refine ask (.slot site d) (fun ha => (Site.gives_slot.mp ha).2) fun {_ i} ha => ?_
  refine emit rfl fun base hact hagrees => ?_
  obtain ⟨rfl, v, hv, rfl⟩ := read_eq_some.mp hact
  cases hv
  refine ⟨_, _, rfl, ?_, hagrees⟩
  rw [← hagrees.vars d i (by rw [h.slots]; exact (Site.gives_slot.mp ha).1)]
  rfl

theorem storeLocal (h : I.Hosts site) :
    I.Realizes regions [v] (do Lower.emit (.storeLocal (← site.slot d)))
      (Runtime.bindVariable d v) fun _ => [] := by
  refine ask (.slot site d) (fun ha => (Site.gives_slot.mp ha).2) fun {_ i} ha => ?_
  refine emit rfl fun base hact hagrees => ?_
  obtain ⟨hσ, rfl⟩ := write_eq_some.mp hact
  cases hσ
  exact ⟨_, _, rfl, rfl, h.agrees_update hagrees (Site.gives_slot.mp ha).1 v⟩

theorem readVariable_of {R : Runtime} {defn : Definition} (h : R.defn? d = some defn) :
    R.readVariable d = match defn.kind with
      | .global index => Meaning.read fun σ => some (σ.world.globals index)
      | .parameter | .localVar => Meaning.read fun σ => some (σ.vars d)
      | .field _ => Meaning.stuck := by
  rw [Runtime.readVariable, h]
  rfl

theorem writeVariable_of {R : Runtime} {defn : Definition} (h : R.defn? d = some defn) :
    R.writeVariable d v = match defn.kind with
      | .global index => Meaning.write fun σ => some { σ with world := σ.world.setGlobal index v }
      | .parameter | .localVar => Runtime.bindVariable d v
      | .field _ => Meaning.stuck := by
  rw [Runtime.writeVariable, h]
  rfl

theorem loadVariable (h : I.Hosts site) :
    I.Realizes regions [] (site.loadVariable d) (I.machine.readVariable d) fun v => [v] := by
  refine lift .entryAt fun defn hd => ?_
  rw [readVariable_of (h.defn? hd)]
  cases defn.kind with
  | global index =>
    refine emit rfl fun base hact hagrees => ?_
    obtain ⟨rfl, v, hv, rfl⟩ := read_eq_some.mp hact
    cases hv
    refine ⟨_, _, rfl, ?_, hagrees⟩
    rw [← hagrees.world]
    rfl
  | parameter => exact loadLocal h
  | localVar => exact loadLocal h
  | field _ => exact fail ..

theorem storeVariable (h : I.Hosts site) :
    I.Realizes regions [v] (site.storeVariable d) (I.machine.writeVariable d v) fun _ => [] := by
  refine lift .entryAt fun defn hd => ?_
  rw [writeVariable_of (h.defn? hd)]
  cases defn.kind with
  | global index =>
    refine emit rfl fun base hact hagrees => ?_
    obtain ⟨hσ, rfl⟩ := write_eq_some.mp hact
    cases hσ
    refine ⟨_, _, rfl, rfl, ⟨?_, hagrees.vars⟩⟩
    dsimp only
    rw [hagrees.world]
  | parameter => exact storeLocal h
  | localVar => exact storeLocal h
  | field _ => exact fail ..

theorem storeAndLeave (h : I.Hosts site) (mode : Mode) :
    I.Realizes regions [v] (do Lower.dupIfValue mode; site.storeVariable d)
      (do I.machine.writeVariable d v; Pure.pure v) mode.leaves :=
  arrange (dupIfValue mode v) <|
    ((storeVariable h).frame (mode.leaves v)).yield (fun _ => v) fun _ => rfl

/-! ## Types and casts -/

theorem typesOf?_map_type (tys : List Ty) : Machine.typesOf? (tys.map .type) = some tys := by
  induction tys with
  | nil => rfl
  | cons ty rest ih => simp [Machine.typesOf?, ih]

theorem effect_classType {M : Machine} {c : ClassId} {args : List Ty} {base : List Value}
    {m : Memory} (h : M.arity? c = some args.length) :
    M.effect (.classType c) ((args.map Value.type).reverse ++ base) m =
      some (.type (.object c args false) :: base, m) := by
  simp [Machine.effect_classArgs, h, typesOf?_map_type]

mutual
theorem emitTy : ∀ ty : Ty, I.Realizes regions [] (site.emitTy ty)
    (Meaning.need (I.machine.typeAt? ty)) fun t => [.type t]
  | .object c args nullable => by
    rw [Runtime.typeAt?, Meaning.need_bind]
    refine bind (emitTys args) fun args => emit rfl fun base hact hagrees => ?_
    obtain ⟨rfl, t, ht, rfl⟩ := read_eq_some.mp hact
    split at ht <;> cases ht
    rename_i harity
    exact ⟨_, _, rfl, effect_classType harity, hagrees⟩
  | .variable t => emit_pure rfl _ fun m base => rfl
  | .unit | .boolean | .i8 | .i16 | .i32 | .i64 | .f32 | .f64 | .nothing | .null => fail ..
theorem emitTys : ∀ tys : List Ty, I.Realizes regions [] (site.emitTys tys)
    (Meaning.need (I.machine.typesAt? tys)) fun ts => (ts.map Value.type).reverse
  | [] => pure [] rfl
  | ty :: rest => by
    rw [Runtime.typesAt?, Meaning.need_bind]
    refine bind (emitTy ty) fun first => ?_
    rw [Meaning.need_bind]
    exact ((emitTys rest).frame [.type first]).yield (fun others => first :: others)
      fun others => by simp
end

theorem coerce (source target : Ty) (v : Value) :
    I.Realizes regions [v] (site.coerce source target) (I.machine.coerce source target v)
      fun w => [w] := by
  cases source with
  | object c args nullable =>
    cases target with
    | object c' args' nullable' =>
      simp only [Site.coerce, Runtime.coerce]
      split
      · refine bind ((emitTy _).frame [v]) fun ty => emit rfl fun base hact hagrees => ?_
        obtain ⟨rfl, w, hw, rfl⟩ := read_eq_some.mp hact
        split at hw <;> cases hw
        rename_i hadmits
        rw [← hagrees.world] at hadmits
        exact ⟨_, _, rfl, if_pos hadmits, hagrees⟩
      · exact pure v rfl
    | _ => exact pure v rfl
  | _ => exact pure v rfl

/-! ## Fields -/

end Realizes

end Image

/-- Every object that the receiver may be keeps the field where the class that declares
it does. -/
def Runtime.Uniform (R : Runtime) (receiver : Ty) (d : DefnId) : Prop :=
  ∀ {c sub defn owner place place'}, receiver.class? = some c → R.isBelow? sub c = some true →
    R.fieldSlot? sub d = some place → R.defn? d = some defn → defn.kind = .field owner →
    R.fieldSlot? owner d = some place' → place = place'

theorem Runtime.fieldPlace?_eq_some {R : Runtime} {receiver : Ty} {address : Nat}
    (h : R.fieldPlace? w receiver r d = some (address, place)) :
    r = .object address ∧ ∃ c sub, receiver.class? = some c ∧ R.isBelow? sub c = some true ∧
      R.fieldSlot? sub d = some place := by
  unfold fieldPlace? at h
  split at h
  · simp only [Option.bind_eq_bind, Option.bind_eq_some_iff] at h
    obtain ⟨o, _, c, hc, h⟩ := h
    split at h <;> rename_i hbelow
    · obtain ⟨place', hplace, h⟩ := Option.bind_eq_some_iff.mp h
      cases h
      exact ⟨rfl, c, o.cls, hc, hbelow, hplace⟩
    · cases h
  · cases h

theorem Image.Hosts.fieldSlot {s t : LowerState} (h : I.Hosts site)
    (hgives : (site.fieldSlot d).Gives s place t) :
    t = s ∧ ∃ defn owner, I.machine.defn? d = some defn ∧ defn.kind = .field owner ∧
      I.machine.fieldSlot? owner d = some place := by
  obtain ⟨defn, u, h1, h2⟩ := gives_bind.mp hgives
  obtain ⟨hdefn, rfl⟩ := gives_lift.mp h1
  split at h2
  swap
  · exact (Site.not_gives_fail h2).elim
  rename_i owner howner
  obtain ⟨cls, u, h3, h4⟩ := gives_bind.mp h2
  obtain ⟨hcls, rfl⟩ := gives_lift.mp h3
  split at h4
  · exact (not_gives_stop h4).elim
  · rename_i layout hlayout
    split at h4
    · rename_i index slot hindex hslot
      obtain ⟨rfl, rfl⟩ := gives_pure.mp h4
      have hlayout : I.machine.layout? owner = some layout := by
        unfold Runtime.layout?
        rw [h.program, entryAt_eq_ok.mp hcls]
        exact hlayout
      refine ⟨rfl, defn, owner, h.defn? hdefn, howner, ?_⟩
      simp [Runtime.fieldSlot?, hlayout, hindex, hslot]
    · exact (Site.not_gives_fail h4).elim

namespace Machine

variable {M : Machine} {storage : Storage} {index address : Nat} {base : List Value} {m : Memory}

theorem effect_load {nullable : Bool} (hv : m.world.field? address index = some v)
    (hyields : storage.yields nullable v = true) :
    M.effect (storage.load nullable index) (.object address :: base) m = some (v :: base, m) := by
  simp [effect_fieldLoad, load, hv, hyields]

theorem effect_store (hw : m.world.setField? address index v = some w)
    (hholds : storage.holds v = true) :
    M.effect (storage.store index) (.object address :: v :: base) m =
      some (base, { m with world := w }) := by
  simp [effect_fieldStore, store, hw, hholds]

end Machine

namespace Image.Realizes

variable {receiver : Ty}

theorem loadField (h : I.Hosts site) (hu : I.machine.Uniform receiver d) :
    I.Realizes regions [r] (site.loadField d) (I.machine.readField receiver r d) fun v => [v] := by
  refine ask (.fieldSlot site d) (fun ha => (h.fieldSlot ha).1) fun {_ slot} ha => ?_
  obtain ⟨-, defn, owner, hdefn, howner, hslot⟩ := h.fieldSlot ha
  refine lift .entryAt fun defn' hdefn' => ?_
  obtain rfl : defn = defn' := Option.some.inj (hdefn.symm.trans (h.defn? hdefn'))
  rw [Runtime.readField, hdefn]
  refine emit (Storage.isPlain_load ..).isTerminator fun base hact hagrees => ?_
  obtain ⟨rfl, v, hv, rfl⟩ := read_eq_some.mp hact
  obtain ⟨⟨address, place⟩, hplace, hv⟩ := Option.bind_eq_some_iff.mp hv
  obtain ⟨held, hheld, hv⟩ := Option.bind_eq_some_iff.mp hv
  split at hv <;> cases hv
  rename_i hyields
  obtain ⟨rfl, c, sub, hc, hbelow, hsub⟩ := Runtime.fieldPlace?_eq_some hplace
  obtain rfl := hu hc hbelow hsub hdefn howner hslot
  rw [← hagrees.world] at hheld
  exact ⟨_, _, rfl, Machine.effect_load hheld hyields, hagrees⟩

theorem initField (h : I.Hosts site) (hu : I.machine.Uniform receiver d) :
    I.Realizes regions [r, v] (site.initField d) (I.machine.writeField receiver r d v)
      fun _ => [] := by
  refine ask (.fieldSlot site d) (fun ha => (h.fieldSlot ha).1) fun {_ slot} ha => ?_
  obtain ⟨-, defn, owner, hdefn, howner, hslot⟩ := h.fieldSlot ha
  refine emit (Storage.isPlain_store ..).isTerminator fun base hact hagrees => ?_
  obtain ⟨hσ, rfl⟩ := write_eq_some.mp hact
  obtain ⟨⟨address, place⟩, hplace, hσ⟩ := Option.bind_eq_some_iff.mp hσ
  dsimp only at hσ
  split at hσ
  swap
  · cases hσ
  rename_i hholds
  obtain ⟨w, hw, hσ⟩ := Option.bind_eq_some_iff.mp hσ
  cases hσ
  obtain ⟨rfl, c, sub, hc, hbelow, hsub⟩ := Runtime.fieldPlace?_eq_some hplace
  obtain rfl := hu hc hbelow hsub hdefn howner hslot
  rw [← hagrees.world] at hw
  exact ⟨_, _, rfl, Machine.effect_store hw hholds, ⟨rfl, hagrees.vars⟩⟩

theorem storeField (h : I.Hosts site) (hu : I.machine.Uniform receiver d) (mode : Mode) :
    I.Realizes regions [v, r] (site.storeField d mode)
      (do I.machine.writeField receiver r d v; Pure.pure v) mode.leaves := by
  have hstore : I.Realizes regions ([r, v] ++ mode.leaves v) (site.initField d)
      (do I.machine.writeField receiver r d v; Pure.pure v) mode.leaves :=
    ((initField h hu).frame (mode.leaves v)).yield (fun _ => v) fun _ => rfl
  cases mode with
  | value =>
    refine arrange ?_ hstore
    refine emitAll (by simp [Inst.isTerminator]) fun base hact hagrees => ?_
    cases hact
    exact ⟨_, _, rfl, rfl, hagrees⟩
  | effect =>
    exact arrange (emit_pure rfl () fun m base => rfl) hstore

/-! ## Operators -/

theorem emitBinary {op : BinaryOp} (hi : op.inst? ty = some i) (a b : Value) :
    I.Realizes regions [b, a] (Lower.emit i)
      (Meaning.need (I.machine.host.applyBinary op ty a b)) fun v => [v] := by
  refine emit (BinaryOp.isPlain_inst hi).isTerminator fun base hact hagrees => ?_
  obtain ⟨rfl, v, hv, rfl⟩ := read_eq_some.mp hact
  exact ⟨_, _, rfl, Machine.effect_binary hi hv, hagrees⟩

theorem emitUnary {op : UnaryOp} (hi : op.inst? ty = some i) (a : Value) :
    I.Realizes regions [a] (Lower.emit i)
      (Meaning.need (I.machine.host.applyUnary op ty a)) fun v => [v] := by
  refine emit (UnaryOp.isPlain_inst hi).isTerminator fun base hact hagrees => ?_
  obtain ⟨rfl, v, hv, rfl⟩ := read_eq_some.mp hact
  exact ⟨_, _, rfl, Machine.effect_unary hi hv, hagrees⟩

end Image.Realizes

end StackBackend
