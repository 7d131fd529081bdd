import StackBackend.Layout.Flatten
import StackBackend.Proofs.CheckedLists

/-! The steps of flattening. A field is appended under a new name. A method is appended under
a new name or takes over the slot that has its name. -/

namespace StackBackend

open Checked List

variable {s : FieldSlot} {d : DefnId} {name owner : String} {layout layout' : ClassLayout}
  {method : FunctionId} {cls : ClassDecl} {p : Program} {c : ClassId}

theorem Checked.foldlM_invariant {α β : Type} {add : β → α → Checked β} {I : β → Prop} {b b' : β}
    (xs : List α) (h : xs.foldlM add b = .ok b') (hb : I b)
    (hstep : ∀ a ∈ xs, ∀ {b b'}, I b → add b a = .ok b' → I b') : I b' := by
  refine foldlM_keeps (I := fun _ => I) xs [] h hb fun pre a post b c hsplit hI hadd => hstep a ?_ hI hadd
  exact mem_iff_append.mpr ⟨pre, post, hsplit⟩

namespace Program

def fieldName? (p : Program) (s : FieldSlot) : Option String :=
  p.definitions[s.defn.index]?.map Definition.name

def methodName? (p : Program) (s : MethodSlot) : Option String :=
  p.functions[s.function.index]?.map FunctionDecl.name

def nameOf? (p : Program) (m : FunctionId) : Option String :=
  p.functions[m.index]?.map FunctionDecl.name

theorem fieldName?_eq {d : Definition} (h : p.defnAt s.defn = .ok d) :
    p.fieldName? s = some d.name := by
  rw [fieldName?, entryAt_eq_ok.mp h]
  rfl

theorem methodName?_eq {s : MethodSlot} {f : FunctionDecl} (h : p.functionAt s.function = .ok f) :
    p.methodName? s = some f.name := by
  rw [methodName?, entryAt_eq_ok.mp h]
  rfl

theorem fieldNamed?_cases {found : Option FieldSlot} (slots : List FieldSlot)
    (h : p.fieldNamed? name slots = .ok found) :
    found = none ∧ (∀ s ∈ slots, p.fieldName? s ≠ some name ∧ p.fieldName? s ≠ none) ∨
      ∃ s ∈ slots, found = some s ∧ p.fieldName? s = some name := by
  induction slots with
  | nil => cases h; exact .inl ⟨rfl, nofun⟩
  | cons slot rest ih =>
    obtain ⟨d, hd, h⟩ := bind_eq_ok.mp h
    have hslot := fieldName?_eq hd
    by_cases hname : d.name = name
    · rw [if_pos hname] at h
      cases h
      exact .inr ⟨slot, .head _, rfl, hname ▸ hslot⟩
    · rw [if_neg hname] at h
      rcases ih h with ⟨hfound, hrest⟩ | ⟨s, hs, hfound⟩
      · refine .inl ⟨hfound, forall_mem_cons.mpr ⟨?_, hrest⟩⟩
        simp [hslot, hname]
      · exact .inr ⟨s, mem_cons_of_mem slot hs, hfound⟩

theorem methodNamed?_cases (slots : List MethodSlot) :
    ∀ {found : Option Nat}, p.methodNamed? name slots = .ok found →
      found = none ∧ (∀ s ∈ slots, p.methodName? s ≠ some name ∧ p.methodName? s ≠ none) ∨
        ∃ i s, found = some i ∧ slots[i]? = some s ∧ p.methodName? s = some name := by
  induction slots with
  | nil => intro found h; cases h; exact .inl ⟨rfl, nofun⟩
  | cons slot rest ih =>
    intro found h
    obtain ⟨f, hf, h⟩ := bind_eq_ok.mp h
    have hslot := methodName?_eq hf
    by_cases hname : f.name = name
    · rw [if_pos hname] at h
      cases h
      exact .inr ⟨0, slot, rfl, rfl, hname ▸ hslot⟩
    · rw [if_neg hname] at h
      obtain ⟨found', hfound', h⟩ := bind_eq_ok.mp h
      cases h
      rcases ih hfound' with ⟨rfl, hrest⟩ | ⟨i, s, rfl, hs⟩
      · refine .inl ⟨rfl, forall_mem_cons.mpr ⟨?_, hrest⟩⟩
        simp [hslot, hname]
      · exact .inr ⟨i + 1, s, rfl, hs⟩

end Program

theorem addFieldSlot_cases (h : p.addFieldSlot c owner layout d = .ok layout') :
    (∃ s, s.defn = d ∧ p.fieldName? s ≠ none ∧
        (∀ s' ∈ layout.fields, p.fieldName? s' ≠ p.fieldName? s ∧ p.fieldName? s' ≠ none) ∧
        layout' = { layout with fields := layout.fields ++ [s] }) ∨
      layout' = layout ∧ ∃ s ∈ layout.fields, s.defn = d := by
  obtain ⟨field, hfield, h⟩ := bind_eq_ok.mp h
  obtain ⟨found, hfound, h⟩ := bind_eq_ok.mp h
  rcases Program.fieldNamed?_cases _ hfound with ⟨rfl, hnew⟩ | ⟨existing, hmem, rfl, _⟩
  · cases h
    have hname := Program.fieldName?_eq (s := ⟨d, field.ty.storage.getD .pointer⟩) hfield
    refine .inl ⟨_, rfl, ?_, ?_, rfl⟩
    · simp [hname]
    · rw [hname]
      exact hnew
  · dsimp only at h
    split at h
    · rename_i heq
      cases h
      exact .inr ⟨rfl, existing, hmem, heq⟩
    · obtain ⟨_, _, h⟩ := bind_eq_ok.mp h
      obtain ⟨_, _, h⟩ := bind_eq_ok.mp h
      obtain ⟨_, _, h⟩ := bind_eq_ok.mp h
      cases h

theorem addFieldSlots_ok (ds : List DefnId) (h : ds.foldlM (p.addFieldSlot c owner) layout = .ok layout') :
    layout.fields <+: layout'.fields ∧ ∀ s ∈ layout'.fields, s ∈ layout.fields ∨ s.defn ∈ ds := by
  refine foldlM_invariant (I := fun l => layout.fields <+: l.fields ∧
    ∀ s ∈ l.fields, s ∈ layout.fields ∨ s.defn ∈ ds) ds h ⟨prefix_rfl, fun s hs => .inl hs⟩ ?_
  intro d hd l l' ⟨hstart, hadded⟩ hadd
  rcases addFieldSlot_cases hadd with ⟨s, rfl, _, _, rfl⟩ | ⟨rfl, _⟩
  · refine ⟨hstart.trans (prefix_append ..), forall_mem_append.mpr ⟨hadded, ?_⟩⟩
    exact forall_mem_singleton.mpr (.inr hd)
  · exact ⟨hstart, hadded⟩

theorem methods_addFieldSlots (ds : List DefnId)
    (h : ds.foldlM (p.addFieldSlot c owner) layout = .ok layout') : layout'.methods = layout.methods := by
  refine foldlM_invariant (I := fun l => l.methods = layout.methods) ds h rfl ?_
  intro d _ l l' hl hadd
  rcases addFieldSlot_cases hadd with ⟨s, _, _, _, rfl⟩ | ⟨rfl, _⟩
  · exact hl
  · exact hl

theorem addMethodSlot_cases (h : p.addMethodSlot c layout method = .ok layout') :
    ∃ s, s.function = method ∧ p.methodName? s ≠ none ∧
      ((∀ s' ∈ layout.methods, p.methodName? s' ≠ p.methodName? s ∧ p.methodName? s' ≠ none) ∧
          layout' = { layout with methods := layout.methods ++ [s] } ∨
        ∃ i s', layout.methods[i]? = some s' ∧ p.methodName? s' = p.methodName? s ∧
          (s'.function = method ∨ p.isCompatibleOverride c s'.function method = .ok true) ∧
          layout' = { layout with methods := layout.methods.set i s }) := by
  obtain ⟨function, hfunction, h⟩ := bind_eq_ok.mp h
  obtain ⟨found, hfound, h⟩ := bind_eq_ok.mp h
  have hname := Program.methodName?_eq (s := ⟨method, function.returnTy.storage⟩) hfunction
  refine ⟨⟨method, function.returnTy.storage⟩, rfl, by simp [hname], ?_⟩
  rw [hname]
  rcases Program.methodNamed?_cases _ hfound with ⟨rfl, hnew⟩ | ⟨i, s', rfl, hs', hname'⟩
  · cases h
    exact .inl ⟨hnew, rfl⟩
  · refine .inr ⟨i, s', hs', hname', ?_⟩
    -- Both ways to find the override compatible end alike.
    have hend : ∀ {compatible : Bool}, (if compatible = true then
          pure { layout with methods := layout.methods.set i ⟨method, function.returnTy.storage⟩ }
        else do reject (.incompatibleOverride (← p.classAt c).name function.name)) =
          (Except.ok layout' : Checked ClassLayout) →
        compatible = true ∧ layout' =
          { layout with methods := layout.methods.set i ⟨method, function.returnTy.storage⟩ } := by
      intro compatible h
      split at h
      · cases h; exact ⟨‹_›, rfl⟩
      · obtain ⟨_, _, h⟩ := bind_eq_ok.mp h
        cases h
    dsimp only at h
    rw [hs'] at h
    split at h
    · obtain ⟨_, _, h⟩ := bind_eq_ok.mp h
      exact ⟨.inl ‹_›, (hend h).2⟩
    · obtain ⟨compatible, hcompatible, h⟩ := bind_eq_ok.mp h
      obtain ⟨rfl, hlayout⟩ := hend h
      exact ⟨.inr hcompatible, hlayout⟩

theorem fields_addMethodSlot
    (h : p.addMethodSlot c layout method = .ok layout') : layout'.fields = layout.fields := by
  obtain ⟨s, _, _, ⟨_, rfl⟩ | ⟨i, s', _, _, _, rfl⟩⟩ := addMethodSlot_cases h
  · rfl
  · rfl

theorem addMethodSlot_new (h : p.addMethodSlot c layout method = .ok layout') :
    ∀ slot ∈ layout'.methods, slot ∈ layout.methods ∨ slot.function = method := by
  obtain ⟨s, hs, _, ⟨_, rfl⟩ | ⟨i, _, _, _, _, rfl⟩⟩ := addMethodSlot_cases h
  · intro slot hslot
    refine (mem_append.mp hslot).imp id fun hm => ?_
    rw [mem_singleton.mp hm, hs]
  · intro slot hslot
    refine (mem_or_eq_of_mem_set hslot).imp id fun heq => ?_
    rw [heq, hs]

theorem isCompatibleOverride_iff {o : ClassId} {owner : ClassDecl} {inherited : FunctionId}
    {old new : FunctionDecl} {found : Option (List Ty)} (hcls : p.classAt c = .ok cls)
    (hold : p.functionAt inherited = .ok old) (hnew : p.functionAt method = .ok new)
    (hkind : old.kind.owner? = some o) (howner : p.classAt o = .ok owner)
    (hfound : p.instantiateSupertype ⟨c, cls.typeParams.map .variable, false⟩ o = .ok found) :
    p.isCompatibleOverride c inherited method = .ok true ↔
      (old.params.length = new.params.length ∧ old.typeParams.length = new.typeParams.length) ∧
      p.sameParams (owner.typeParams ++ old.typeParams)
        (found.getD [] ++ new.typeParams.map .variable) ((old.params.zip new.params).drop 1) = .ok true ∧
      p.isSubtype new.returnTy (old.returnTy.substitute (owner.typeParams ++ old.typeParams)
        (found.getD [] ++ new.typeParams.map .variable)) = .ok true := by
  have hthis : p.thisClassTy c = .ok ⟨c, cls.typeParams.map .variable, false⟩ := by
    rw [Program.thisClassTy, hcls]
    rfl
  rw [Program.isCompatibleOverride, hold, hnew]
  change (if _ then _ else _ : Checked Bool) = _ ↔ _
  split
  · next hne =>
    constructor
    · nofun
    · rintro ⟨⟨hparams, htypeParams⟩, _⟩
      simp [hparams, htypeParams] at hne
  · next heq =>
    rw [not_or, not_ne_iff, not_ne_iff] at heq
    rw [hkind, hthis]
    change (p.instantiateSupertype _ o >>= _) = _ ↔ _
    rw [hfound, howner]
    change (p.sameParams _ _ _ >>= _) = _ ↔ _
    rw [and_iff_right heq, bind_eq_ok]
    constructor
    · rintro ⟨same, hsame, h⟩
      cases same with
      | true => exact ⟨hsame, h⟩
      | false => cases h
    · rintro ⟨hsame, hsub⟩
      exact ⟨true, hsame, hsub⟩

theorem foldlM_of_addOwnMethods (methods : List FunctionId) :
    ∀ {seen : List String} {layout : ClassLayout},
      p.addOwnMethods cls c seen layout methods = .ok layout' →
      methods.foldlM (p.addMethodSlot c) layout = .ok layout' := by
  induction methods with
  | nil => intro seen layout h; exact h
  | cons method rest ih =>
    intro seen layout h
    obtain ⟨function, _, h⟩ := bind_eq_ok.mp h
    dsimp only at h
    split at h
    · cases h
    · obtain ⟨layout1, h1, h2⟩ := bind_eq_ok.mp h
      exact bind_eq_ok.mpr ⟨layout1, h1, ih h2⟩

theorem fields_addMethodSlots (methods : List FunctionId)
    (h : methods.foldlM (p.addMethodSlot c) layout = .ok layout') : layout'.fields = layout.fields :=
  foldlM_invariant (I := fun l => l.fields = layout.fields) methods h rfl
    fun _ _ _ _ hl hadd => (fields_addMethodSlot hadd).trans hl

theorem members_addMethodSlots {P : FunctionId → Prop} (methods : List FunctionId)
    (hlayout : ∀ slot ∈ layout.methods, P slot.function) (hmethods : ∀ m ∈ methods, P m)
    (h : methods.foldlM (p.addMethodSlot c) layout = .ok layout') :
    ∀ slot ∈ layout'.methods, P slot.function := by
  refine foldlM_invariant (I := fun l => ∀ slot ∈ l.methods, P slot.function) methods h hlayout ?_
  intro m hm l l' hl hadd slot hslot
  rcases addMethodSlot_new hadd slot hslot with hold | rfl
  · exact hl slot hold
  · exact hmethods _ hm

theorem members_addInterface {P : FunctionId → Prop} {iface : ClassId}
    (hmethods : ∀ {c cls}, p.classAt c = .ok cls → ∀ m ∈ cls.methods, P m)
    (hlayout : ∀ slot ∈ layout.methods, P slot.function)
    (h : p.addInterface c layout iface = .ok layout') : ∀ slot ∈ layout'.methods, P slot.function := by
  obtain ⟨source, hsource, h⟩ := bind_eq_ok.mp h
  obtain ⟨layout1, h1, h2⟩ := bind_eq_ok.mp h
  refine members_addMethodSlots _ ?_ (hmethods hsource) h2
  rw [methods_addFieldSlots _ h1]
  exact hlayout

theorem fields_addOwnMethods {seen : List String} (methods : List FunctionId)
    (h : p.addOwnMethods cls c seen layout methods = .ok layout') : layout'.fields = layout.fields :=
  fields_addMethodSlots _ (foldlM_of_addOwnMethods _ h)

theorem isPrefix_addInterfaces (interfaces : List ClassId)
    (h : interfaces.foldlM (p.addInterface c) layout = .ok layout') :
    layout.fields <+: layout'.fields := by
  refine foldlM_invariant (I := fun l => layout.fields <+: l.fields) interfaces h prefix_rfl ?_
  intro iface _ l l' hl hadd
  obtain ⟨source, _, hadd⟩ := bind_eq_ok.mp hadd
  obtain ⟨layout2, hfields, hmethods⟩ := bind_eq_ok.mp hadd
  rw [fields_addMethodSlots _ hmethods]
  exact hl.trans (addFieldSlots_ok _ hfields).1

end StackBackend
