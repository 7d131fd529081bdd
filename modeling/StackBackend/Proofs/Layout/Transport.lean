import StackBackend.Proofs.Layout.Steps
import StackBackend.Proofs.Program.Consistent

/-! What flattening looks at. Tables depend on names and types of definitions, on the
signatures of methods, and on classes, and where a second program has these, every class
gets the tables it got. A class comes after its superclass, or there are as many classes as
there were, so walks up the hierarchy end where they ended. -/

namespace StackBackend

open Checked

/-! ## Answers that stay -/

/-- The answer to the first question, if it has one, is that to the second. If it has none, it is
not for want of tables. -/
structure Checked.Carries {α : Type} (x y : Checked α) : Prop where
  answer : ∀ ⦃a⦄, x = .ok a → y = .ok a
  tables : ∀ name, x ≠ .error (.rejected (.layoutNotFinalized name))

namespace Checked.Carries

variable {α β : Type} {x y : Checked α} {f g : α → Checked β}

instance : CoeFun (x.Carries y) fun _ => ∀ ⦃a⦄, x = .ok a → y = .ok a := ⟨answer⟩

theorem pure {a : α} : (pure a : Checked α).Carries (Pure.pure a) := ⟨fun _ h => h, nofun⟩

theorem reject {e : CompileError} (h : ∀ name, e ≠ .layoutNotFinalized name) :
    (reject e : Checked α).Carries y :=
  ⟨nofun, fun name he => by cases he; exact h name rfl⟩

theorem of_bind {y : Checked β} (hx : ∀ name, x ≠ .error (.rejected (.layoutNotFinalized name)))
    (h : ∀ a, x = .ok a → (f a).Carries y) : (x >>= f).Carries y := by
  cases x with
  | error e => exact ⟨nofun, fun name he => hx name (by cases he; rfl)⟩
  | ok a => exact h a rfl

theorem andThen (h : x.Carries y) (hf : ∀ a, x = .ok a → (f a).Carries (g a)) :
    (x >>= f).Carries (y >>= g) := by
  refine of_bind h.tables fun a ha => ?_
  rw [h ha]
  exact hf a ha

section

variable {table : Table} {entries : Array α} {i : Nat}

theorem bind {γ : Type} {y : Checked γ} {g : γ → Checked β}
    (h : ∀ a, entryAt table entries i = .ok a → ∃ b, y = .ok b ∧ (f a).Carries (g b)) :
    (entryAt table entries i >>= f).Carries (y >>= g) := by
  refine of_bind (fun _ => entryAt_ne_rejected) fun a ha => ?_
  obtain ⟨b, rfl, hcarries⟩ := h a ha
  exact hcarries

theorem skip {y : Checked β} (h : ∀ a, (f a).Carries y) :
    (entryAt table entries i >>= f).Carries y :=
  of_bind (fun _ => entryAt_ne_rejected) fun a _ => h a

end

theorem ite {c : Prop} [Decidable c] {x' y' : Checked α} (h : x.Carries y) (h' : x'.Carries y') :
    (if c then x else x').Carries (if c then y else y') := by
  split
  · exact h
  · exact h'

theorem foldlM {add add' : β → α → Checked β} {I : β → Prop} (xs : List α)
    (hadd : ∀ a ∈ xs, ∀ {b}, I b → (add b a).Carries (add' b a))
    (hkeeps : ∀ a ∈ xs, ∀ {b b'}, I b → add b a = .ok b' → I b') :
    ∀ {b}, I b → (xs.foldlM add b).Carries (xs.foldlM add' b) := by
  induction xs with
  | nil => exact fun _ => .pure
  | cons a rest ih =>
    intro b hb
    rw [List.foldlM_cons, List.foldlM_cons]
    refine .andThen (hadd a (.head _) hb) fun b' hb' => ?_
    exact ih (fun a ha => hadd a (.tail _ ha))
      (fun a ha => hkeeps a (.tail _ ha)) (hkeeps a (.head _) hb hb')

end Checked.Carries

open Checked (Carries)

namespace Program

variable {p q : Program} {M : FunctionId → Prop} {layout : ClassLayout} {c : ClassId}
  {cls : ClassDecl} {method : FunctionId} {n m : Nat}

/-! ## The hierarchy -/

/-- A walk from the class has steps left until it ends. -/
def Enough (p : Program) (steps : Nat) (c : ClassId) : Prop :=
  0 < steps ∧ (c.index < p.classes.size → c.index < steps)

def SuperclassesFirst (p : Program) : Prop :=
  ∀ ⦃i : Nat⦄ ⦃cls : ClassDecl⦄, p.classes[i]? = some cls → ∀ st ∈ cls.supertype, st.cls.index < i

/-- Walks of so many steps from the class end alike. -/
def SameReach (p : Program) (n m : Nat) (c : ClassId) : Prop :=
  n = m ∨ p.SuperclassesFirst ∧ p.Enough n c ∧ p.Enough m c

theorem SameReach.cases (h : p.SameReach n m c) :
    n = 0 ∧ m = 0 ∨ ∃ n' m', n = n' + 1 ∧ m = m' + 1 ∧ ∀ {cls st}, p.classAt c = .ok cls →
      cls.supertype = some st → p.SameReach n' m' st.cls := by
  rcases h with rfl | ⟨hfirst, hn, hm⟩
  · cases n with
    | zero => exact .inl ⟨rfl, rfl⟩
    | succ n => exact .inr ⟨n, n, rfl, rfl, fun _ _ => .inl rfl⟩
  · obtain ⟨n, rfl⟩ := Nat.exists_eq_succ_of_ne_zero (Nat.ne_of_gt hn.1)
    obtain ⟨m, rfl⟩ := Nat.exists_eq_succ_of_ne_zero (Nat.ne_of_gt hm.1)
    refine .inr ⟨n, m, rfl, rfl, fun {cls st} hcls hst => .inr ⟨hfirst, ?_⟩⟩
    have hlt := hfirst (entryAt_eq_ok.mp hcls) st hst
    have hn' := hn.2 (lt_size_of_entryAt hcls)
    have hm' := hm.2 (lt_size_of_entryAt hcls)
    exact ⟨⟨by omega, fun _ => by omega⟩, by omega, fun _ => by omega⟩

/-- All that flattening looks at in the first program is the same in the second one, but for
tables. Functions other than the given ones may have other signatures. -/
structure Sees (p q : Program) (M : FunctionId → Prop) : Prop where
  defnAt : ∀ {d defn}, p.defnAt d = .ok defn →
    ∃ defn', q.defnAt d = .ok defn' ∧ defn'.name = defn.name ∧ defn'.ty = defn.ty
  functionAt : ∀ {f decl}, p.functionAt f = .ok decl →
    ∃ decl', q.functionAt f = .ok decl' ∧ decl'.name = decl.name ∧ decl'.returnTy = decl.returnTy ∧
      (M f → decl'.kind = decl.kind ∧ decl'.params = decl.params ∧ decl'.typeParams = decl.typeParams)
  classAt : ∀ {c cls}, p.classAt c = .ok cls → ∃ layout, q.classAt c = .ok { cls with layout }
  reach : ∀ c, p.SameReach (p.classes.size + 1) (q.classes.size + 1) c

namespace Sees

variable (h : p.Sees q M)
include h

theorem instantiateWithin {target : ClassId} (n : Nat) :
    ∀ {m : Nat} {ty : ClassTy}, p.SameReach n m ty.cls →
      (p.instantiateWithin target n ty).Carries (q.instantiateWithin target m ty) := by
  induction n with
  | zero =>
    intro m ty hreach
    obtain ⟨_, rfl⟩ | ⟨_, _, h, _⟩ := hreach.cases
    · exact .pure
    · cases h
  | succ n ih =>
    intro m ty hreach
    obtain ⟨h, _⟩ | ⟨_, m, ⟨⟩, rfl, hnext⟩ := hreach.cases
    · cases h
    refine .ite .pure (.bind fun cls hcls => ?_)
    obtain ⟨layout, hcls'⟩ := h.classAt hcls
    refine ⟨_, hcls', ?_⟩
    dsimp only
    cases hst : cls.supertype with
    | none => exact .pure
    | some st =>
      have hreach' : p.SameReach n m st.cls := hnext hcls hst
      exact ih hreach'

theorem isSubclassWithin {sup : ClassId} (n : Nat) :
    ∀ {m : Nat} {c : ClassId}, p.SameReach n m c →
      (p.isSubclassWithin sup n c).Carries (q.isSubclassWithin sup m c) := by
  induction n with
  | zero =>
    intro m c hreach
    obtain ⟨_, rfl⟩ | ⟨_, _, h, _⟩ := hreach.cases
    · exact .pure
    · cases h
  | succ n ih =>
    intro m c hreach
    obtain ⟨h, _⟩ | ⟨_, m, ⟨⟩, rfl, hnext⟩ := hreach.cases
    · cases h
    refine .ite .pure (.bind fun cls hcls => ?_)
    obtain ⟨layout, hcls'⟩ := h.classAt hcls
    refine ⟨_, hcls', .ite .pure ?_⟩
    dsimp only
    cases hst : cls.supertype with
    | none => exact .pure
    | some st => exact ih (hnext hcls hst)

theorem isSubtype (sub sup : Ty) : (p.isSubtype sub sup).Carries (q.isSubtype sub sup) := by
  unfold Program.isSubtype
  split
  · exact .pure
  · exact .pure
  · exact .ite (h.isSubclassWithin _ (h.reach _)) .pure
  · exact .pure

/-! ## Fields -/

theorem fieldNamed? {name : String} (slots : List FieldSlot) :
    (p.fieldNamed? name slots).Carries (q.fieldNamed? name slots) := by
  induction slots with
  | nil => exact .pure
  | cons slot rest ih =>
    refine .bind fun defn hdefn => ?_
    obtain ⟨defn', hdefn', hname, _⟩ := h.defnAt hdefn
    refine ⟨defn', hdefn', ?_⟩
    rw [hname]
    exact .ite .pure ih

theorem addFieldSlot {owner : String} {d : DefnId} :
    (p.addFieldSlot c owner layout d).Carries (q.addFieldSlot c owner layout d) := by
  refine .bind fun field hfield => ?_
  obtain ⟨field', hfield', hname, hty⟩ := h.defnAt hfield
  refine ⟨field', hfield', ?_⟩
  rw [hname, hty]
  refine .andThen (h.fieldNamed? _) fun found _ => ?_
  cases found with
  | none => exact .pure
  | some existing =>
    exact .ite .pure (.skip fun _ => .skip fun _ => .skip fun _ => .reject nofun)

theorem addFieldSlots {owner : String} (ds : List DefnId) :
    (ds.foldlM (p.addFieldSlot c owner) layout).Carries
      (ds.foldlM (q.addFieldSlot c owner) layout) :=
  .foldlM (I := fun _ => True) ds (fun _ _ _ _ => h.addFieldSlot) (fun _ _ _ _ _ _ => trivial) trivial

/-! ## Methods -/

theorem methodNamed? {name : String} (slots : List MethodSlot) :
    (p.methodNamed? name slots).Carries (q.methodNamed? name slots) := by
  induction slots with
  | nil => exact .pure
  | cons slot rest ih =>
    refine .bind fun decl hdecl => ?_
    obtain ⟨decl', hdecl', hname, _⟩ := h.functionAt hdecl
    refine ⟨decl', hdecl', ?_⟩
    rw [hname]
    exact .ite .pure (.andThen ih fun _ _ => .pure)

theorem sameParams {params : List TypeParamId} {args : List Ty} (pairs : List (DefnId × DefnId)) :
    (p.sameParams params args pairs).Carries (q.sameParams params args pairs) := by
  induction pairs with
  | nil => exact .pure
  | cons pair rest ih =>
    refine .bind fun old hold => ?_
    obtain ⟨old', hold', _, hty⟩ := h.defnAt hold
    refine ⟨old', hold', .bind fun new hnew => ?_⟩
    obtain ⟨new', hnew', _, hty'⟩ := h.defnAt hnew
    refine ⟨new', hnew', ?_⟩
    rw [hty, hty']
    exact .ite ih .pure

theorem isCompatibleOverride {inherited : FunctionId} (hinherited : M inherited) (hmethod : M method) :
    (p.isCompatibleOverride c inherited method).Carries
      (q.isCompatibleOverride c inherited method) := by
  refine .bind fun old hold => ?_
  obtain ⟨old', hold', _, hty, hsame⟩ := h.functionAt hold
  obtain ⟨hkind, hparams, htypeParams⟩ := hsame hinherited
  refine ⟨old', hold', .bind fun new hnew => ?_⟩
  obtain ⟨new', hnew', _, hty', hsame'⟩ := h.functionAt hnew
  obtain ⟨_, hparams', htypeParams'⟩ := hsame' hmethod
  refine ⟨new', hnew', ?_⟩
  rw [hparams, hparams', htypeParams, htypeParams', hkind, hty, hty']
  refine .ite .pure ?_
  cases old.kind.owner? with
  | none =>
    exact .andThen .pure fun _ _ => .andThen (h.sameParams _) fun _ _ => .ite (h.isSubtype _ _) .pure
  | some owner =>
    refine .andThen (.bind fun cls hcls => ?_) fun this _ => .andThen
      (h.instantiateWithin _ (h.reach _)) fun args _ => .bind fun cls hcls => ?_
    · obtain ⟨layout, hcls'⟩ := h.classAt hcls
      exact ⟨_, hcls', .pure⟩
    · obtain ⟨layout, hcls'⟩ := h.classAt hcls
      exact ⟨_, hcls', .andThen .pure fun _ _ => .andThen (h.sameParams _) fun _ _ =>
        .ite (h.isSubtype _ _) .pure⟩

theorem addMethodSlot (hlayout : ∀ slot ∈ layout.methods, M slot.function) (hmethod : M method) :
    (p.addMethodSlot c layout method).Carries (q.addMethodSlot c layout method) := by
  refine .bind fun decl hdecl => ?_
  obtain ⟨decl', hdecl', hname, hty, _⟩ := h.functionAt hdecl
  refine ⟨decl', hdecl', ?_⟩
  rw [hty, hname]
  refine .andThen (h.methodNamed? _) fun found _ => ?_
  cases found with
  | none => exact .pure
  | some slot =>
    have hinherited : M ((layout.methods[slot]?.map MethodSlot.function).getD method) := by
      cases hslot : layout.methods[slot]? with
      | none => exact hmethod
      | some entry => exact hlayout entry (List.mem_of_getElem? hslot)
    refine .ite (.andThen .pure fun _ _ => ?_) (.andThen (h.isCompatibleOverride hinherited hmethod)
      fun _ _ => ?_) <;>
    exact .ite .pure (.skip fun _ => .reject nofun)

theorem addMethodSlots (methods : List FunctionId) (hlayout : ∀ slot ∈ layout.methods, M slot.function)
    (hmethods : ∀ m ∈ methods, M m) : (methods.foldlM (p.addMethodSlot c) layout).Carries
      (methods.foldlM (q.addMethodSlot c) layout) := by
  refine .foldlM (I := fun l => ∀ slot ∈ l.methods, M slot.function) methods
    (fun m hm l hl => h.addMethodSlot hl (hmethods m hm)) (fun m hm l l' hl hadd => ?_) hlayout
  exact members_addMethodSlots [m] hl (List.forall_mem_singleton.mpr (hmethods m hm))
    (bind_eq_ok.mpr ⟨l', hadd, rfl⟩)

theorem addOwnMethods {cls' : ClassDecl} (methods : List FunctionId) :
    ∀ {seen : List String} {layout : ClassLayout}, (∀ slot ∈ layout.methods, M slot.function) →
      (∀ m ∈ methods, M m) → (p.addOwnMethods cls c seen layout methods).Carries
        (q.addOwnMethods cls' c seen layout methods) := by
  induction methods with
  | nil => exact fun _ _ => .pure
  | cons method rest ih =>
    intro seen layout hlayout hmethods
    obtain ⟨hmethod, hrest⟩ := List.forall_mem_cons.mp hmethods
    refine .bind fun decl hdecl => ?_
    obtain ⟨decl', hdecl', hname, _⟩ := h.functionAt hdecl
    refine ⟨decl', hdecl', ?_⟩
    dsimp only
    rw [hname]
    refine .ite (.reject nofun) (.andThen (h.addMethodSlot hlayout hmethod) fun layout1 h1 =>
      ih (members_addMethodSlots [method] hlayout (List.forall_mem_singleton.mpr hmethod)
        (bind_eq_ok.mpr ⟨layout1, h1, rfl⟩)) hrest)

/-! ## Classes -/

section

variable (hmethods : ∀ {c cls}, p.classAt c = .ok cls → ∀ m ∈ cls.methods, M m)
include hmethods

theorem addInterface {iface : ClassId} (hlayout : ∀ slot ∈ layout.methods, M slot.function) :
    (p.addInterface c layout iface).Carries (q.addInterface c layout iface) := by
  refine .bind fun source hsource => ?_
  obtain ⟨tables, hsource'⟩ := h.classAt hsource
  refine ⟨_, hsource', .andThen (h.addFieldSlots _) fun layout1 h1 =>
    h.addMethodSlots _ ?_ (hmethods hsource)⟩
  rw [methods_addFieldSlots _ h1]
  exact hlayout

theorem flattenClass_carries (hinherited : ∀ {cls}, p.classAt c = .ok cls →
      ∃ base, p.inheritedLayout cls = .ok base ∧ (∀ slot ∈ base.methods, M slot.function) ∧
        q.inheritedLayout cls = .ok base) :
    (p.flattenClass c).Carries (q.flattenClass c) := by
  refine .bind fun cls hcls => ?_
  obtain ⟨tables, hcls'⟩ := h.classAt hcls
  obtain ⟨base, hbase, hbaseM, hbase'⟩ := hinherited hcls
  have hkeeps : ∀ iface ∈ cls.interfaces, ∀ {l l' : ClassLayout},
      (∀ slot ∈ l.methods, M slot.function) → p.addInterface c l iface = .ok l' →
      ∀ slot ∈ l'.methods, M slot.function :=
    fun iface _ _ _ hl hadd => members_addInterface hmethods hl hadd
  refine ⟨_, hcls', .andThen (y := q.inheritedLayout cls) ?_ fun base' h0 => ?_⟩
  · rw [hbase, hbase']
    exact .pure
  cases hbase.symm.trans h0
  refine .andThen (.foldlM _ (fun iface _ _ => h.addInterface hmethods) hkeeps hbaseM) fun layout1 h1 =>
    .andThen (h.addFieldSlots _) fun layout2 h2 => h.addOwnMethods _ ?_ (hmethods hcls)
  rw [methods_addFieldSlots _ h2]
  exact foldlM_invariant _ h1 hbaseM hkeeps

theorem flattenClass
    (hinherited : ∀ {cls base}, p.classAt c = .ok cls → p.inheritedLayout cls = .ok base →
      (∀ slot ∈ base.methods, M slot.function) ∧ q.inheritedLayout cls = .ok base)
    (hflat : p.flattenClass c = .ok layout) : q.flattenClass c = .ok layout := by
  obtain ⟨cls, hcls, hrest⟩ := bind_eq_ok.mp hflat
  obtain ⟨base, hbase, _⟩ := bind_eq_ok.mp hrest
  refine h.flattenClass_carries hmethods (fun hcls' => ?_) hflat
  cases hcls.symm.trans hcls'
  exact ⟨base, hbase, hinherited hcls hbase⟩

end

theorem visitClass (steps : Nat) : ∀ {path order c},
    (p.visitClass steps path order c).Carries (q.visitClass steps path order c) := by
  induction steps with
  | zero => intro path order c; exact .pure
  | succ steps ih =>
    intro path order c
    refine .bind fun cls hcls => ?_
    obtain ⟨layout, hcls'⟩ := h.classAt hcls
    refine ⟨_, hcls', .ite .pure (.ite (.reject nofun) (.andThen ?_ fun _ _ => .pure))⟩
    exact .foldlM (I := fun _ => True) _ (fun _ _ _ _ => ih) (fun _ _ _ _ _ _ => trivial) trivial

end Sees

end Program

end StackBackend
