import StackBackend.Proofs.Lowering.Composition
import StackBackend.Proofs.Lowering.DraftSteps

/-! What lowering puts into blocks. `Emits` says of a step that it adds allowed
instructions only, that the string pool keeps what it has, and that a failure is
never about blocks. What is allowed is left open: an instruction without an operand
always is, and one with an operand if the program mentions what it refers to. -/

namespace StackBackend

open Lower

variable {α β : Type} {i : Inst} {is : List Inst} {site : Site}
  {ok : Inst → Prop}

/-! ## Steps -/

structure Emits (ok : Inst → Prop) (m : Lower α) : Prop where
  fault : ∀ {s e}, m s = .error e → e.isBlockFault = false
  pool : ∀ {s a t}, m.Gives s a t → s.strings.toList <+: t.strings.toList
  added : ∀ {s a t}, m.Gives s a t → ∀ l, ∀ i ∈ t.draft.code l,
    i ∈ s.draft.code l ∨ ok i ∨ ∃ k, i = .string k ∧ k < t.strings.size

namespace Emits

theorem bind_of {m : Lower α} {f : α → Lower β} (hm : Emits ok m)
    (hf : ∀ a s t, m.Gives s a t → Emits ok (f a)) : Emits ok (m >>= f) where
  fault {s e} h := by
    change (m s >>= fun p => f p.1 p.2) = _ at h
    cases hs : m s with
    | error e' => rw [hs] at h; cases h; exact hm.fault hs
    | ok r => rw [hs] at h; exact (hf r.1 s r.2 hs).fault h
  pool h := by
    obtain ⟨a, t, h1, h2⟩ := gives_bind.mp h
    exact (hm.pool h1).trans ((hf a _ t h1).pool h2)
  added h l i hi := by
    obtain ⟨a, t, h1, h2⟩ := gives_bind.mp h
    rcases (hf a _ t h1).added h2 l i hi with hi | hi | hi
    · rcases hm.added h1 l i hi with hi | hi | ⟨k, hi, hk⟩
      · exact .inl hi
      · exact .inr (.inl hi)
      · have hlen := ((hf a _ t h1).pool h2).length_le
        simp only [Array.length_toList] at hlen
        exact .inr (.inr ⟨k, hi, hk.trans_le hlen⟩)
    · exact .inr (.inl hi)
    · exact .inr (.inr hi)

theorem bind {m : Lower α} {f : α → Lower β} (hm : Emits ok m) (hf : ∀ a, Emits ok (f a)) :
    Emits ok (m >>= f) :=
  bind_of hm fun a _ _ _ => hf a

theorem quiet {m : Lower α} (hf : ∀ {s e}, m s = .error e → e.isBlockFault = false)
    (hc : ∀ {s a t}, m.Gives s a t → t.strings = s.strings ∧ ∀ l, t.draft.code l = s.draft.code l) :
    Emits ok m where
  fault := hf
  pool h := (hc h).1 ▸ List.prefix_rfl
  added h l i hi := by rw [(hc h).2 l] at hi; exact .inl hi

theorem pure (a : α) : Emits ok (pure a : Lower α) :=
  quiet (fun h => nomatch h) fun h => by
    obtain ⟨_, rfl⟩ := gives_pure.mp h
    exact ⟨rfl, fun _ => rfl⟩

theorem lift {x : Checked α} (hx : x.Clean) : Emits ok (liftM x : Lower α) := by
  refine quiet (fun {s e} h => hx e ?_) fun h => ?_
  · cases x with
    | error e' => cases h; rfl
    | ok a => cases h
  · obtain ⟨_, rfl⟩ := gives_lift.mp h
    exact ⟨rfl, fun _ => rfl⟩

theorem stop {e : CompileError} (h : (Fault.rejected e).isBlockFault = false) :
    Emits ok (Lower.stop e : Lower α) :=
  quiet (fun he => by cases he; exact h) fun h => (not_gives_stop h).elim

theorem draft {f : Draft → α × Draft} (hi : ok i)
    (hf : ∀ d l, ∀ j ∈ (f d).2.code l, j ∈ d.code l ∨ j = i) : Emits ok (Lower.draft f) where
  fault h := nomatch h
  pool h := by
    obtain ⟨_, rfl⟩ := gives_draft.mp h
    exact List.prefix_rfl
  added {s a t} h l j hj := by
    obtain ⟨_, rfl⟩ := gives_draft.mp h
    rcases hf s.draft l j hj with hj | rfl
    · exact .inl hj
    · exact .inr (.inl hi)

theorem emit (hi : ok i) : Emits ok (Lower.emit i) :=
  draft hi fun _ _ _ hj => Draft.mem_code_emit hj

theorem terminate (hi : ok i) : Emits ok (Lower.terminate i) :=
  draft hi fun _ _ _ hj => Draft.mem_code_terminate hj

theorem label : Emits ok Lower.label :=
  quiet (fun h => nomatch h) fun h => by
    obtain ⟨_, rfl⟩ := gives_label.mp h
    exact ⟨rfl, by simp⟩

theorem start (l : BlockId) : Emits ok (Lower.start l) :=
  quiet (fun h => nomatch h) fun h => by
    obtain ⟨_, rfl⟩ := gives_start.mp h
    exact ⟨rfl, by simp⟩

theorem resume (l : BlockId) : Emits ok (Lower.resume l) :=
  quiet (fun h => nomatch h) fun h => by
    rw [gives_resume.mp h]
    exact ⟨rfl, by simp⟩

theorem isReachable : Emits ok Lower.isReachable :=
  quiet (fun h => nomatch h) fun h => by
    obtain ⟨_, rfl⟩ := gives_isReachable.mp h
    exact ⟨rfl, fun _ => rfl⟩

theorem isReferenced (l : BlockId) : Emits ok (Lower.isReferenced l) :=
  quiet (fun h => nomatch h) fun h => by
    obtain ⟨_, rfl⟩ := gives_isReferenced.mp h
    exact ⟨rfl, fun _ => rfl⟩

/-! ## Strings -/

theorem getElem?_poolIndex {pool : Array String} {text : String} {i : Nat}
    (h : poolIndex? pool text = some i) : pool[i]? = some text := by
  have hlt : i < pool.size := by simpa using List.mem_of_find?_eq_some h
  have htext := List.find?_some h
  rw [decide_eq_true_iff, Array.getD_eq_getD_getElem?] at htext
  rw [Array.getElem?_eq_getElem hlt] at htext ⊢
  exact congrArg some htext

theorem getElem?_of_prefix {pool : Array String} {later : List String} {text : String} {i : Nat}
    (h : pool.toList <+: later) (hi : pool[i]? = some text) : later[i]? = some text := by
  obtain ⟨rest, rfl⟩ := h
  rw [← Array.getElem?_toList] at hi
  rw [List.getElem?_append_left (List.getElem?_eq_some_iff.mp hi).1, hi]

theorem not_mem_of_poolIndex? {pool : Array String} {text : String}
    (h : poolIndex? pool text = none) : text ∉ pool.toList := by
  intro hmem
  obtain ⟨i, hi⟩ := List.mem_iff_getElem?.mp hmem
  rw [Array.getElem?_toList] at hi
  obtain ⟨hlt, _⟩ := Array.getElem?_eq_some_iff.mp hi
  rw [poolIndex?, List.find?_eq_none] at h
  refine h i (by simpa using hlt) ?_
  rw [decide_eq_true_iff, Array.getD_eq_getD_getElem?, hi, Option.getD_some]

/-- The pool keeps what it has, and the string stands at the position given. -/
theorem intern_spec (pool : Array String) (text : String) :
    pool.toList <+: (intern pool text).2.toList ∧
      (intern pool text).2[(intern pool text).1]? = some text := by
  unfold intern
  split <;> rename_i h
  · exact ⟨List.prefix_rfl, getElem?_poolIndex h⟩
  · simp

theorem emitString (text : String) : Emits ok (Lower.emitString text) := by
  refine bind isReachable fun reachable => ?_
  cases reachable with
  | false => exact pure ()
  | true =>
    refine ⟨(fun h => nomatch h), fun {s _ _} h => ?_, fun {s _ _} h l i hi => ?_⟩
    · cases h
      exact (intern_spec s.strings text).1
    · cases h
      rcases Draft.mem_code_emit hi with hi | rfl
      · exact .inl hi
      · have hlt := Array.getElem?_eq_some_iff.mp (intern_spec s.strings text).2
        exact .inr (.inr ⟨_, rfl, hlt.1⟩)

/-! ## Lowering -/

theorem labelled (plain : ∀ i : Inst, i.hasOperand = false → ok i) :
    Labelled ok fun _ _ m _ => Emits ok m where
  free := plain
  weaken _ := id
  pure := pure
  bind_of := bind_of
  lift hx _ := lift hx
  stop := stop
  emit _ := emit
  terminate _ := terminate
  label h := bind label fun l => h l l
  start _ := start _
  resume _ := resume _
  isReachable := isReachable
  isReferenced _ := isReferenced _

theorem composes : Composes .free (fun _ _ _ => True) (fun _ _ _ m _ => Emits (fun _ => True) m)
    (fun _ _ _ _ m _ => Emits (fun _ => True) m) :=
  (labelled fun _ _ => trivial).composes emitString

theorem slot (site : Site) (d : DefnId) : Emits (fun _ => True) (site.slot d) :=
  composes.toStraight.slot (o := none) (x := ()) rfl d

theorem fieldSlot (site : Site) (d : DefnId) : Emits (fun _ => True) (site.fieldSlot d) :=
  composes.toStraight.fieldSlot (o := none) (x := ()) rfl d

theorem orFail (site : Site) (x : Option α) (cause : LoweringCause) :
    Emits (fun _ => True) (site.orFail x cause) :=
  composes.toStraight.orFail (q := site.program) (o := none) (x := ()) x cause

theorem lowerEntry {N : Node → Prop} {Y : Ty → Prop}
    (plain : ∀ i : Inst, i.hasOperand = false → ok i)
    (hp : Permits site .free N Y fun i _ _ => ok i) (he : ∀ e ∈ site.function.exprs, e.All N) :
    Emits ok site.lowerEntry :=
  ((labelled plain).composes emitString).lowerEntry Discipline.flat_free (x := ()) (y := ()) trivial hp he rfl none

end Emits

end StackBackend
