import StackBackend.Proofs.Lowering.Operands
import StackBackend.Proofs.Lowering.FinishedBlocks
import StackBackend.Verify

/-! The body of a lowered function: what its slots are, that finishing its blocks
never fails, and that its instructions refer to what the program holds. -/

namespace StackBackend

open Checked
open List (mem_append mem_flatMap mem_map)

variable {p : Program} {options : CompileOptions} {f : FunctionDecl} {strings : Array String}

/-! ## Slots -/

theorem assignSlots_ok {slotOf : Nat → Int} {ds : List DefnId} :
    ∀ {position : Nat} {slots : List LocalSlot}, assignSlots p slotOf position ds = .ok slots →
      slots.map LocalSlot.defn = ds ∧
      slots.map LocalSlot.slot = (List.range' position ds.length).map slotOf := by
  induction ds with
  | nil => intro position slots h; cases h; exact ⟨rfl, rfl⟩
  | cons d rest ih =>
    intro position slots h
    obtain ⟨defn, _, h⟩ := bind_eq_ok.mp h
    obtain ⟨tail, htail, h⟩ := bind_eq_ok.mp h
    cases h
    obtain ⟨hdefn, hslot⟩ := ih htail
    exact ⟨by simp [hdefn], by simp [hslot, List.range'_succ]⟩

theorem assignSlots_clean (slotOf : Nat → Int) (ds : List DefnId) :
    ∀ position, Checked.Clean (assignSlots p slotOf position ds) := by
  induction ds with
  | nil => intro position; exact .pure _
  | cons d rest ih =>
    intro position
    exact .bind .entryAt fun _ => .bind (ih _) fun _ => .pure _

/-- The slots of a function, its parameters first. -/
structure SlotsOf (p : Program) (f : FunctionDecl) (params locals : List LocalSlot) : Prop where
  params : assignSlots p paramSlot 0 f.params = .ok params
  locals : assignSlots p localSlot 0 f.declaredLocals = .ok locals

namespace SlotsOf

variable {params locals : List LocalSlot}

theorem length_params (h : SlotsOf p f params locals) : params.length = f.params.length := by
  rw [← (assignSlots_ok h.params).1, List.length_map]

theorem inRange (h : SlotsOf p f params locals) {d : DefnId} {i : Int}
    (hi : Site.slotOf? (params ++ locals) d = some i) :
    -(locals.length : Int) ≤ i ∧ i < params.length := by
  unfold Site.slotOf? at hi
  obtain ⟨l, hl, rfl⟩ := Option.map_eq_some_iff.mp hi
  have hmem : l ∈ params ++ locals := List.mem_reverse.mp (List.mem_of_find?_eq_some hl)
  rcases mem_append.mp hmem with hm | hm
  · have hs := List.mem_map_of_mem (f := LocalSlot.slot) hm
    rw [(assignSlots_ok h.params).2] at hs
    obtain ⟨k, hk, hs⟩ := mem_map.mp hs
    rw [List.mem_range'_1, ← h.length_params] at hk
    rw [← hs, paramSlot]
    omega
  · have hs := List.mem_map_of_mem (f := LocalSlot.slot) hm
    obtain ⟨hd, hslots⟩ := assignSlots_ok h.locals
    rw [hslots] at hs
    obtain ⟨k, hk, hs⟩ := mem_map.mp hs
    have hlen := congrArg List.length hd
    rw [List.length_map] at hlen
    rw [List.mem_range'_1, ← hlen] at hk
    rw [← hs, localSlot]
    omega

end SlotsOf

/-! ## The entry -/

theorem Draft.initial_eq : Draft.initial = ⟨#[⟨#[], true, true⟩], #[0], some 0⟩ := rfl

theorem Draft.stateOf_initial (l : BlockId) :
    Draft.initial.stateOf l = if l = Draft.entry then ⟨#[], true, true⟩ else .fresh := by
  rw [initial_eq, stateOf]
  split <;> rename_i h
  · rw [h]; rfl
  · have hne : l.index ≠ 0 := fun h0 => h (Ref.ext_index h0)
    simp [Array.getD_eq_getD_getElem?, hne]

theorem Draft.wf_initial : Draft.initial.WF := by
  have hcode : ∀ l, Draft.initial.code l = [] := by
    intro l; rw [code, stateOf_initial]; split <;> rfl
  have hstarted : ∀ l, Draft.initial.isStarted l = true ↔ l = entry := by
    intro l; rw [isStarted, stateOf_initial]; split <;> rename_i h <;> simp [h, LabelState.fresh]
  have hreferenced : ∀ l, Draft.initial.isReferenced l = true ↔ l = entry := by
    intro l; rw [isReferenced, stateOf_initial]; split <;> rename_i h <;> simp [h, LabelState.fresh]
  have hnone : ∀ l t, ¬ Draft.initial.Targets l t := by
    rintro l t ⟨i, hi, _⟩; rw [hcode] at hi; cases hi
  refine ⟨(hstarted _).mpr rfl, ?_, ?_, ?_, ?_, fun l _ => hcode l, ?_,
    fun l t h => (hnone l t h).elim, fun t h => .inl ((hreferenced t).mp h), ?_⟩
  · intro n hn; cases hn; exact (hstarted _).mpr rfl
  · intro n _ i hi; rw [hcode] at hi; cases hi
  · intro n
    rw [hstarted, initial_eq]
    exact ⟨fun h => by rw [List.mem_singleton.mp h]; rfl, fun h => by cases h; exact .head _⟩
  · simp [initial_eq]
  · intro l i hi; rw [hcode] at hi; cases hi
  · intro pre t post h
    rw [initial_eq] at h
    cases pre with
    | nil => cases h; exact .inl ⟨rfl, rfl⟩
    | cons x xs => simp at h

theorem Draft.built_initial : Built Draft.initial 0 ∅ ∅ Draft.initial where
  wf := wf_initial
  grows := .refl _
  size := Nat.zero_le _
  started_or_owed l hl := by
    rcases wf_initial.targets_of_referenced l hl with rfl | ⟨x, i, hi, _⟩
    · exact .inl wf_initial.entry_started
    · have hnil : Draft.initial.code x = [] := by
        rw [code, stateOf_initial]; split <;> rfl
      rw [hnil] at hi; cases hi
  ended_or_open l hl := by
    have hm := (wf_initial.mem_order l.index).mpr hl
    rw [initial_eq, List.mem_singleton] at hm
    exact .inr (.inl (by rw [hm]; rfl))

theorem finished_of_lowerEntry {site : Site} {t : LowerState} {v : Unit}
    (h : site.lowerEntry.Gives ⟨.initial, strings⟩ v t) : t.draft.Finished :=
  ((Neat.lowerEntry site).keeps h Draft.built_initial).finished (Neat.lowerEntry_current h)

/-! ## Functions -/

structure LoweredFrom (p : Program) (f : FunctionDecl) (strings : Array String) (body : Body)
    (t : LowerState) : Prop where
  slots : SlotsOf p f body.params body.locals
  entry : (Site.lowerEntry ⟨p, f, body.params ++ body.locals⟩).Gives ⟨.initial, strings⟩ () t
  finished : t.draft.Finished
  blocks : body.blocks = t.draft.blocks

theorem lowerFunction_ok {body : Body} {pool : Array String}
    (h : lowerFunction p options f strings = .ok (body, pool)) :
    ∃ t, LoweredFrom p f strings body t ∧ pool = t.strings := by
  unfold lowerFunction at h
  obtain ⟨params, hparams, h⟩ := bind_eq_ok.mp h
  dsimp only at h
  split at h
  · cases h
  obtain ⟨locals, hlocals, h⟩ := bind_eq_ok.mp h
  obtain ⟨⟨_, t⟩, hentry, h⟩ := bind_eq_ok.mp h
  have hfin := finished_of_lowerEntry hentry
  dsimp only at h
  rw [Draft.finish_eq hfin] at h
  cases h
  exact ⟨t, ⟨⟨hparams, hlocals⟩, hentry, hfin, rfl⟩, rfl⟩

theorem emits_lowerEntry (site : Site) : Emits (fun _ => True) site.lowerEntry :=
  Emits.lowerEntry (fun _ _ => trivial) (.all site .free (fun _ => True) fun _ _ _ _ => trivial) fun _ _ _ _ => trivial

theorem lowerFunction_clean : Checked.Clean (lowerFunction p options f strings) := by
  unfold lowerFunction
  refine .bind (assignSlots_clean _ _ _) fun params => ?_
  dsimp only
  split
  · intro e h; cases h; rfl
  refine .bind (assignSlots_clean _ _ _) fun locals => ?_
  intro e h
  cases hentry : (Site.lowerEntry ⟨p, f, params ++ locals⟩).run ⟨.initial, strings⟩ with
  | error e' =>
    rw [hentry] at h
    cases h
    exact (emits_lowerEntry _).fault hentry
  | ok r =>
    rw [hentry] at h
    dsimp only [bind, Except.bind] at h
    rw [Draft.finish_eq (finished_of_lowerEntry hentry)] at h
    cases h

/-! ## Operands -/

/-- Every id that occurs is in range, every global has its place, no function has
code yet, and every constructor has a receiver. -/
structure Program.Linked (p : Program) : Prop where
  mentions : ∀ m ∈ p.mentions, m.inRange p = true
  globals : ∀ d ∈ p.definitions.toList, ∀ n, d.kind = .global n → n < p.globals.size
  unlowered : ∀ f ∈ p.functions.toList, f.lowered = none
  receivers : ∀ f ∈ p.functions.toList, ∀ c, f.kind = .constructor c → f.params ≠ []

/-- The property holds of every id that the node itself mentions. -/
def Node.AllIds (P : Mention → Prop) (n : Node) : Prop := ∀ m ∈ n.mentions, P m

theorem Node.AllIds.own {P : Mention → Prop} {e : Expr} (h : Node.AllIds P (.expr e)) :
    ∀ m ∈ e.ownMentions, P m :=
  fun m hm => h m (List.mem_append_right _ hm)

theorem mem_of_findM? {α : Type} {test : α → Checked Bool} {xs : List α} {x : α}
    (h : xs.findM? test = .ok (some x)) : x ∈ xs := by
  induction xs with
  | nil => cases h
  | cons y rest ih =>
    rw [List.findM?] at h
    obtain ⟨b, _, h⟩ := bind_eq_ok.mp h
    cases b with
    | true => cases h; exact .head _
    | false => exact List.mem_cons_of_mem y (ih h)

namespace Program.Linked

variable {m : Mention}

theorem defn (hp : p.Linked) {d : Definition} (hd : d ∈ p.definitions.toList)
    (hm : m ∈ d.mentions) : m.inRange p = true := by
  refine hp.mentions m ?_
  simp only [Program.mentions, mem_append, mem_flatMap]
  exact .inl (.inl (.inl (.inl ⟨d, hd, hm⟩)))

theorem cls (hp : p.Linked) {c : ClassDecl} (hc : c ∈ p.classes.toList) (hm : m ∈ c.mentions) :
    m.inRange p = true := by
  refine hp.mentions m ?_
  simp only [Program.mentions, mem_append, mem_flatMap]
  exact .inl (.inl (.inl (.inr ⟨c, hc, hm⟩)))

theorem function (hp : p.Linked) (hf : f ∈ p.functions.toList) (hm : m ∈ f.mentions) :
    m.inRange p = true := by
  refine hp.mentions m ?_
  simp only [Program.mentions, mem_append, mem_flatMap]
  exact .inl (.inl (.inr ⟨f, hf, hm⟩))

theorem handler (hp : p.Linked) {slot : Nat}
    (h : Site.slotIn? p isSubtypeOfMethod typeClass = .ok (some slot)) :
    typeClass.index < p.classes.size ∧ typeConstructor.index < p.functions.size := by
  obtain ⟨cls, hc, h⟩ := bind_eq_ok.mp h
  refine ⟨lt_size_of_entryAt hc, ?_⟩
  have h : cls.layout.bind (·.methodSlot? isSubtypeOfMethod) = some slot := by
    injection h
  obtain ⟨layout, hl, hslot⟩ := Option.bind_eq_some_iff.mp h
  obtain ⟨hlt, hfun, _⟩ := List.findIdx?_eq_some_iff_getElem.mp hslot
  have hm : Mention.function isSubtypeOfMethod ∈ cls.mentions := by
    simp only [ClassDecl.mentions, mem_append]
    refine .inr (mem_map.mpr ⟨layout.methods[slot], ?_, ?_⟩)
    · rw [hl]; exact List.getElem_mem hlt
    · rw [of_decide_eq_true hfun]
  have := hp.cls (mem_of_entryAt hc) hm
  simp only [Mention.inRange, decide_eq_true_eq] at this
  exact Nat.lt_of_succ_lt this

theorem defaultConstructor (hp : p.Linked) {c : ClassId} {g : FunctionId}
    (h : p.defaultConstructor c = .ok g) : Mention.inRange p (.function g) = true := by
  unfold Program.defaultConstructor at h
  obtain ⟨cls, hc, h⟩ := bind_eq_ok.mp h
  obtain ⟨found, hfind, h⟩ := bind_eq_ok.mp h
  cases found with
  | none => cases h
  | some g =>
    cases h
    exact hp.cls (mem_of_entryAt hc) (by simp [ClassDecl.mentions, mem_of_findM? hfind])

theorem permits (hp : p.Linked) (hf : f ∈ p.functions.toList) {params locals : List LocalSlot}
    (hs : SlotsOf p f params locals) (blocks : List Block) :
    Permits ⟨p, f, params ++ locals⟩ .free (Node.AllIds fun m => m.inRange p = true)
      (Ty.AllIds fun m => m.inRange p = true)
      (fun i _ _ => operandInRange p ⟨params, locals, blocks⟩ i = true) where
  object h := ⟨(Ty.allIds_object.mp h).2, fun _ => (Ty.allIds_object.mp h).1⟩
  typeVar h _ := Ty.allIds_variable.mp h
  substitute ha := .substitute ha
  exprTy h m hm := h m (List.mem_append_left _ hm)
  slot d i hi := by
    obtain ⟨hlo, hhi⟩ := hs.inRange hi
    simp [operandInRange, hlo, hhi]
  receiver hr _ := by
    have hne : f.params ≠ [] := by
      intro h
      simp [FunctionDecl.receiver?, h] at hr
    have hlen := hs.length_params
    have hpos := List.length_pos_iff.mpr hne
    simp only [operandInRange, Bool.and_eq_true, decide_eq_true_eq]
    omega
  global d defn n hd hk := by
    have h := hp.globals defn (mem_of_entryAt hd) n hk
    simp [operandInRange, h]
  call h :=
    have h := List.forall_mem_cons.mp h.own
    ⟨forall_mentionsOfTys.mp h.2, fun _ => h.1⟩
  invoke h := by
    obtain ⟨hm, htys⟩ := List.forall_mem_cons.mp h.own
    refine ⟨forall_mentionsOfTys.mp htys, fun _ i _ _ _ hi _ => ?_⟩
    rcases (Site.gives_dispatch hi).2 with rfl | ⟨slot, rfl⟩
    · exact hm
    · simp [operandInRange]
  new h := ⟨fun _ => h.own _ (.head _), fun _ => h.own _ (.tail _ (.head _))⟩
  guard {_ guard _ _ _} h _ hb := by
    obtain ⟨hc, hf⟩ := hp.handler hb
    have hg : (guard.getD exceptionClass).index < p.classes.size :=
      of_decide_eq_true (h _ (List.mem_singleton_self _))
    simp [operandInRange, hc, hf, hg]
  self c hc _ := by
    have hpos := List.length_pos_iff.mpr (hp.receivers f hf c hc)
    have hlen := hs.length_params
    simp only [operandInRange, Bool.and_eq_true, decide_eq_true_eq]
    omega
  superCall c cls st g _ _ _ h _ := hp.defaultConstructor h
  chain c cls _ _ := by
    have hcall : ∀ m ∈ (f.chain.getD .initial).call.mentions, m.inRange p = true := fun m hm => by
      refine hp.function hf ?_
      cases hc : f.chain with
      | none => simp [hc, Chain.initial, ChainCall.mentions] at hm
      | some chain => simp only [hc, Option.getD_some] at hm; simp [FunctionDecl.mentions, hc, hm]
    generalize (f.chain.getD .initial).call = call at hcall ⊢
    cases call with
    | implicit => trivial
    | super g _ => exact fun _ => hcall _ (.head _)
    | sibling g _ => exact fun _ => hcall _ (.head _)
  defnTy d defn hd m hm := hp.defn (mem_of_entryAt hd) (List.mem_append_left _ hm)
  returnTy m hm := hp.function hf (by simp [FunctionDecl.mentions, hm])
  superArgs c cls st hc hst ty hty m hm := by
    have hargs : m ∈ mentionsOfTys st.args := by
      by_contra h
      exact forall_mentionsOfTys.mp (fun m' hm' (he : m' = m) => h (he ▸ hm')) ty hty m hm rfl
    exact hp.cls (mem_of_entryAt hc) (by simp [ClassDecl.mentions, hst, ClassTy.mentions, hargs])
  typeParams c cls hc t ht := Ty.allIds_variable.mpr
    (hp.cls (mem_of_entryAt hc) (by simp [ClassDecl.mentions, ht]))
  initializer c cls g _ hc hg _ :=
    hp.cls (m := .function g) (mem_of_entryAt hc) (by simp [ClassDecl.mentions, hg])

end Program.Linked

theorem operandInRange_congr {q : Program} {body body' : Body} {i : Inst}
    (hg : q.globals.size = p.globals.size) (hc : q.classes.size = p.classes.size)
    (hf : q.functions.size = p.functions.size) (ht : q.typeParams.size = p.typeParams.size)
    (hparams : body'.params = body.params) (hlocals : body'.locals = body.locals)
    (hstring : ∀ k, i = .string k → k < q.strings.size) (h : operandInRange p body i = true) :
    operandInRange q body' i = true := by
  cases i <;> simp_all [operandInRange]

@[simp] theorem operandInRange_mapTargets (p : Program) (body : Body) (g : BlockId → BlockId)
    (i : Inst) : operandInRange p body (i.mapTargets g) = operandInRange p body i := by
  cases i <;> rfl

theorem LoweredFrom.emitted {body : Body} {t : LowerState} {ok : Inst → Prop}
    (h : LoweredFrom p f strings body t)
    (hemits : Emits ok (Site.lowerEntry ⟨p, f, body.params ++ body.locals⟩)) :
    ∀ b ∈ body.blocks, ∀ i ∈ b.instructions, ∃ g j, i = Inst.mapTargets g j ∧
      (ok j ∨ ∃ k, j = .string k ∧ k < t.strings.size) := by
  intro b hb i hi
  rw [h.blocks] at hb
  obtain ⟨_, label, _, _, rfl⟩ := Draft.exists_label_of_mem h.finished.wf hb
  obtain ⟨j, hj, rfl⟩ := mem_map.mp hi
  refine ⟨_, j, rfl, (hemits.added h.entry ⟨label⟩ j hj).resolve_left fun hj => ?_⟩
  rw [Draft.code, Draft.stateOf_initial] at hj
  split at hj <;> cases hj

theorem LoweredFrom.operands {body : Body} {t : LowerState} (h : LoweredFrom p f strings body t)
    (hp : p.Linked) (hf : f ∈ p.functions.toList) :
    ∀ b ∈ body.blocks, ∀ i ∈ b.instructions,
      operandInRange p body i = true ∨ ∃ k, i = .string k ∧ k < t.strings.size := by
  intro b hb i hi
  have hexpr : ∀ e ∈ f.exprs, e.All (Node.AllIds fun m => m.inRange p = true) := by
    intro e he n hn m hm
    refine hp.function hf ?_
    simp only [FunctionDecl.mentions, mem_append]
    exact .inr (mem_flatMap.mpr ⟨e, he, mem_flatMap.mpr ⟨n, hn, hm⟩⟩)
  have hemits := Emits.lowerEntry (fun i hi => by cases i <;> first | rfl | cases hi)
    (hp.permits hf h.slots body.blocks) hexpr
  obtain ⟨g, j, rfl, hj | ⟨k, rfl, hk⟩⟩ := h.emitted hemits b hb i hi
  · exact .inl (by rw [operandInRange_mapTargets]; exact hj)
  · exact .inr ⟨k, rfl, hk⟩

end StackBackend
