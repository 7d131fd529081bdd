import Mathlib
import StackBackend.Proofs.Lowering.Verified
import StackBackend.Proofs.Semantics.CleanupExits

/-! Expressions of type `nothing` do not complete. Lowering is followed with what is known of whether
control may get to a place at all. A label that is only branched to from where control does not get
stays idle, and an idle label is never started. -/

namespace StackBackend

open Lower

variable {α β : Type} {n : Nat} {i i' : Inst} {l l' : BlockId} {ls : Set BlockId}
  {here here' : Option Bool} {d : Draft}

/-! ## Idle labels -/

namespace Draft

/-- Nothing has branched to the label. -/
structure IsIdle (d : Draft) (l : BlockId) : Prop where
  unreferenced : d.isReferenced l = false
  unstarted : d.isStarted l = false

theorem isIdle_of_size_le (h : d.labels.size ≤ l.index) : d.IsIdle l where
  unreferenced := eq_false_of_ne_true fun hl => h.not_gt (lt_size_of_isReferenced hl)
  unstarted := eq_false_of_ne_true fun hl => h.not_gt (lt_size_of_isStarted hl)

namespace IsIdle

variable (h : d.IsIdle l)
include h

theorem of_same {d' : Draft} (hr : d'.isReferenced l = d.isReferenced l)
    (hs : d'.isStarted l = d.isStarted l) : d'.IsIdle l :=
  ⟨hr.trans h.unreferenced, hs.trans h.unstarted⟩

theorem start_fst : (d.start l).1 = false := by
  rw [Draft.start_fst, h.unreferenced, Bool.false_and]

theorem start (x : BlockId) : (d.start x).2.IsIdle l := by
  refine ⟨by rw [isReferenced_start, h.unreferenced], ?_⟩
  rw [isStarted_start, h.unstarted, Bool.false_or]
  by_cases hx : l = x
  · rw [← hx, h.start_fst, Bool.and_false]
  · rw [beq_false_of_ne hx, Bool.false_and]

theorem terminate (hi : d.current ≠ none → l ∉ i.successors) : (d.terminate i).IsIdle l := by
  refine ⟨eq_false_of_ne_true fun hl => ?_, by rw [isStarted_terminate, h.unstarted]⟩
  rcases (isReferenced_terminate ..).mp hl with hl | ⟨hc, hl, _⟩
  · rw [h.unreferenced] at hl
    cases hl
  · exact hi (Option.isSome_iff_ne_none.mp hc) hl

end IsIdle

/-- The labels are idle, and code is added only where control may get. -/
structure Spares (n : Nat) (ls : Set BlockId) (here : Option Bool) (d : Draft) : Prop where
  size : n ≤ d.labels.size
  current : here ≠ some true → d.current = none
  idle : ∀ l ∈ ls, d.IsIdle l

namespace Spares

variable (h : d.Spares n ls here)
include h

theorem of_current (hc : d.current = none) : d.Spares n ls here' :=
  { h with current := fun _ => hc }

theorem emit (i : Inst) : (d.emit i).Spares n ls here where
  size := by rw [size_emit]; exact h.size
  current hn := by rw [current_emit]; exact h.current hn
  idle l hl := (h.idle l hl).of_same (isReferenced_emit ..) (isStarted_emit ..)

theorem terminate (hi : d.current ≠ none → ∀ l ∈ ls, l ∉ i.successors) :
    (d.terminate i).Spares n ls here' where
  size := by rw [size_terminate]; exact h.size
  current _ := current_terminate d i
  idle l hl := (h.idle l hl).terminate fun hc => hi hc l hl

theorem start (hl : here' ≠ some true → l ∈ ls) : (d.start l).2.Spares n ls here' where
  size := by rw [size_start]; exact h.size
  current hn := by rw [current_start, (h.idle l (hl hn)).start_fst]; rfl
  idle x hx := (h.idle x hx).start l

theorem resume (hl : here' ≠ some true → l ∈ ls) : (d.resume l).Spares n ls here' where
  size := h.size
  current hn := by rw [current_resume, (h.idle l (hl hn)).unstarted]; rfl
  idle x hx := (h.idle x hx).of_same rfl rfl

end Spares

end Draft

/-! ## Reach -/

/-- Whether control may get to a place. -/
def Discipline.reach : Discipline Bool where
  raise := id
  guard _ := id
  IsBase _ := True
  takes _ _ := True
  guard_raise _ _ := rfl
  isBase_raise _ _ := trivial

theorem Discipline.lift_reach (mode : Mode) (x : Bool) : Discipline.reach.lift mode x = x := by
  cases mode <;> rfl

/-- The labels that are marked as out of reach are the idle ones. -/
structure Marked (n : Nat) (ls : Set BlockId) (known : Marks Bool) : Prop where
  old : ∀ l ∈ ls, l.index < n
  bound : ∀ m ∈ known, m.1.index < n
  idle : ∀ m ∈ known, m.1 ∈ ls ↔ m.2.2 = false

namespace Marked

variable {known known' : Marks Bool}

theorem of_subset (h : Marked n ls known) (hk : known' ⊆ known) : Marked n ls known' :=
  ⟨h.old, fun m hm => h.bound m (hk hm), fun m hm => h.idle m (hk hm)⟩

theorem mem {z : Bool} (h : Marked n ls known) (hk : (l, l', z) ∈ known) (hz : some z ≠ some true) :
    l ∈ ls :=
  (h.idle _ hk).mpr (by simpa using hz)

/-- A new label is idle, whether it is to stay so or not. -/
theorem label (h : Marked n ls known) (hd : d.Spares n ls here) (z : Bool) (l' : BlockId) :
    ∃ n' ls', Marked n' ls' ((⟨d.labels.size⟩, l', z) :: known) ∧ d.label.2.Spares n' ls' here ∧
      ∀ {q d'}, Draft.Spares n' ls' q d' → Draft.Spares n ls q d' := by
  have hn : n ≤ d.labels.size + 1 := hd.size.trans (Nat.le_succ _)
  have hlabel : ∀ {l}, d.IsIdle l → d.label.2.IsIdle l :=
    fun hl => hl.of_same (Draft.isReferenced_label ..) (Draft.isStarted_label ..)
  refine ⟨d.labels.size + 1, ls ∪ {l | l = ⟨d.labels.size⟩ ∧ z = false}, ⟨?_, ?_, ?_⟩,
    ⟨(Draft.size_label d).ge, hd.current, ?_⟩, fun hq => ⟨?_, hq.current, fun l hl => hq.idle l (.inl hl)⟩⟩
  · rintro l (hl | ⟨rfl, _⟩)
    · exact (h.old l hl).trans_le hn
    · exact Nat.lt_succ_self _
  · exact List.forall_mem_cons.mpr ⟨Nat.lt_succ_self _, fun m hm => (h.bound m hm).trans_le hn⟩
  · refine List.forall_mem_cons.mpr ⟨⟨?_, fun hz => .inr ⟨rfl, hz⟩⟩, fun m hm => ?_⟩
    · rintro (hl | ⟨_, hz⟩)
      · exact absurd (h.old _ hl) hd.size.not_gt
      · exact hz
    · refine (or_iff_left ?_).trans (h.idle m hm)
      rintro ⟨heq, _⟩
      have hlt := h.bound m hm
      rw [heq] at hlt
      exact hd.size.not_gt hlt
  · rintro l (hl | ⟨rfl, _⟩)
    · exact hlabel (hd.idle l hl)
    · exact hlabel (Draft.isIdle_of_size_le le_rfl)
  · exact hn.trans hq.size

end Marked

theorem Leap.marked {known : Marks Bool} {x : Bool} (h : Leap .reach known i i' x)
    (hl : l ∈ i.successors) : ∃ l', (l, l', x) ∈ known := by
  cases h with
  | ret | throw => cases hl
  | branch h | popTry h =>
    rw [List.mem_singleton.mp hl]
    exact ⟨_, h⟩
  | branchIf h h' | pushTry h h' =>
    rcases List.mem_pair.mp hl with rfl | rfl
    · exact ⟨_, h⟩
    · exact ⟨_, h'⟩

/-- The step gets only to where its marks say. -/
structure Reaching (known : Marks Bool) (p q : Option Bool) ⦃α : Type⦄ (m m' : Lower α) : Prop where
  keeps : ∀ {n ls s a t}, Marked n ls known → m.Gives s a t → s.draft.Spares n ls p →
    t.draft.Spares n ls q

/-- From the first place control may get to the second one. -/
abbrev Passing : Relation Bool := fun _ x y m m' => Reaching [] (some x) (some y) m m'

/-- Control does not pass the step. -/
abbrev Diverges (m : Lower α) : Prop := Passing true false m m

abbrev Reaching.tracking : Tracking Bool := fun known p q _ m m' => Reaching known p.here q.here m m'

namespace Reaching

variable {known : Marks Bool} {p q r : Option Bool} {x y z : Bool} {m m' : Lower α}

theorem same (hm : ∀ {s a t}, m.Gives s a t → t.draft = s.draft) : Reaching known p p m m' :=
  ⟨fun _ h hs => (hm h).symm ▸ hs⟩

theorem pure (a : α) : Reaching known p p (pure a) (pure a) :=
  same fun h => by rw [(gives_pure.mp h).2]

theorem bind_of {k k' : α → Lower β} (hm : Reaching known p q m m')
    (hk : ∀ a s t, m.Gives s a t → Reaching known q r (k a) (k' a)) :
    Reaching known p r (m >>= k) (m' >>= k') := by
  refine ⟨fun hl h hs => ?_⟩
  obtain ⟨a, u, h1, h2⟩ := gives_bind.mp h
  exact (hk a _ u h1).keeps hl h2 (hm.keeps hl h1 hs)

theorem bind {k k' : α → Lower β} (hm : Reaching known p q m m')
    (hk : ∀ a, Reaching known q r (k a) (k' a)) : Reaching known p r (m >>= k) (m' >>= k') :=
  hm.bind_of fun a _ _ _ => hk a

/-- Where control does not get anything may be said. -/
theorem relax (hm : Reaching known p q m m') (hq : q ≠ some true) : Reaching known p r m m' := by
  refine ⟨fun hl h hs => ?_⟩
  have ht := hm.keeps hl h hs
  exact ht.of_current (ht.current hq)

theorem part (hm : Passing x y m m') : Reaching known (some x) (some y) m m' :=
  ⟨fun hl h hs => hm.keeps (hl.of_subset (List.nil_subset _)) h hs⟩

theorem leave (h : Leap .reach known i i' x) :
    Reaching known (some x) none (Lower.terminate i) (Lower.terminate i') := by
  refine ⟨fun hl hg hs => ?_⟩
  rw [gives_terminate.mp hg]
  refine hs.terminate fun hc l hidle hmem => hc (hs.current ?_)
  obtain ⟨l', hmark⟩ := h.marked hmem
  have hx : x = false := (hl.idle _ hmark).mp hidle
  simp [hx]

theorem label {k k' : BlockId → Lower α} (z : Bool)
    (hk : ∀ l l', Reaching ((l, l', z) :: known) p q (k l) (k' l')) :
    Reaching known p q (Lower.label >>= k) (Lower.label >>= k') := by
  refine ⟨fun hl h hs => ?_⟩
  obtain ⟨l, u, h1, h2⟩ := gives_bind.mp h
  obtain ⟨rfl, rfl⟩ := gives_label.mp h1
  obtain ⟨_, _, hl, hs, hback⟩ := hl.label hs z ⟨0⟩
  exact hback ((hk _ ⟨0⟩).keeps hl h2 hs)

theorem labels {k k' : BlockId → BlockId → Lower α} (z : BlockId → Bool) (u : Bool)
    (hk : ∀ a a' b b', Reaching ((a, a', z b) :: (b, b', u) :: known) p q
      (k a b) (k' a' b')) :
    Reaching known p q (Lower.label >>= fun a => Lower.label >>= fun b => k a b)
      (Lower.label >>= fun a => Lower.label >>= fun b => k' a b) := by
  refine ⟨fun {_ _ s _ _} hl h hs => ?_⟩
  obtain ⟨a, _, h1, h⟩ := gives_bind.mp h
  obtain ⟨b, _, h2, h⟩ := gives_bind.mp h
  obtain ⟨rfl, rfl⟩ := gives_label.mp h1
  obtain ⟨rfl, rfl⟩ := gives_label.mp h2
  obtain ⟨_, _, hl, hs, hback⟩ := hl.label hs (z ⟨s.draft.label.2.labels.size⟩) ⟨0⟩
  obtain ⟨_, _, hl, hs, hback'⟩ := hl.label hs u ⟨0⟩
  exact hback (hback' ((hk _ ⟨0⟩ _ ⟨0⟩).keeps (hl.of_subset (List.Perm.swap ..).subset) h hs))

theorem start (hk : (l, l', z) ∈ known) :
    Reaching known p (some z) (Lower.start l) (Lower.start l') := by
  refine ⟨fun hl h hs => ?_⟩
  rw [(gives_start.mp h).2]
  exact hs.start (hl.mem hk)

theorem resume (hk : (l, l', z) ∈ known) :
    Reaching known p (some z) (Lower.resume l) (Lower.resume l') := by
  refine ⟨fun hl h hs => ?_⟩
  rw [gives_resume.mp h]
  exact hs.resume (hl.mem hk)

theorem startThen {m m' : Lower Unit} (hk : (l, l', z) ∈ known)
    (hm : Reaching known (some z) q m m') :
    Reaching known p q (Lower.startThen l m) (Lower.startThen l' m') := by
  refine ⟨fun {n ls s _ t} hl h hs => ?_⟩
  have hstart : (s.draft.start l).2.Spares n ls (some z) :=
    hs.start (hl.mem hk)
  rw [gives_startThen] at h
  split at h
  · exact hm.keeps hl h hstart
  · rename_i hskip
    rw [h]
    exact hstart.of_current (by rw [Draft.current_start, if_neg hskip])

theorem ifReachable {m m' : Lower Unit} (hm : Reaching known p q m m') :
    Reaching known p q (do if ← Lower.isReachable then m)
      (do if ← Lower.isReachable then m') := by
  refine ⟨fun hl h hs => ?_⟩
  obtain ⟨b, u, h1, h2⟩ := gives_bind.mp h
  obtain ⟨rfl, rfl⟩ := gives_isReachable.mp h1
  split at h2
  · exact hm.keeps hl h2 hs
  · rename_i hdead
    rw [(gives_pure.mp h2).2]
    exact hs.of_current (by simpa [Draft.isReachable] using hdead)

/-- What is done if something branches to a label, where nothing does. -/
theorem ifReferenced {m m' k k' : Lower Unit} (hk : (l, l', false) ∈ known)
    (hm : Reaching known p q k k') :
    Reaching known p q (do if ← Lower.isReferenced l then m else k)
      (do if ← Lower.isReferenced l' then m' else k') := by
  refine ⟨fun hl h hs => ?_⟩
  obtain ⟨b, u, h1, h2⟩ := gives_bind.mp h
  obtain ⟨rfl, rfl⟩ := gives_isReferenced.mp h1
  rw [(hs.idle l ((hl.idle _ hk).mpr rfl)).unreferenced] at h2
  exact hm.keeps hl h2 hs

theorem straight : Straight .reach (fun _ x y => x = y) Passing where
  plain _ := by simp [Discipline.reach]
  pure a _ := pure a
  bind_of := bind_of
  lift _ _ := same fun h => by rw [(gives_lift.mp h).2]
  stop _ := ⟨fun _ h => (not_gives_stop h).elim⟩
  emit _ he := ⟨fun _ h hs => by rw [gives_emit.mp h, ← he]; exact hs.emit _⟩

theorem resumeOrRethrow : Passing x x Site.resumeOrRethrow Site.resumeOrRethrow := by
  refine label x fun _ _ => label x fun _ _ => ?_
  refine (part (straight.emitAll (x := x) (by simp [Inst.isTerminator]))).bind fun _ => ?_
  refine (leave (.branchIf (by simp) (by simp))).bind fun _ => (start (z := x) (by simp)).bind fun _ => ?_
  refine (part (straight.emit rfl rfl)).bind fun _ => (start (z := x) (by simp)).bind fun _ => ?_
  exact (leave (.throw (x := x))).bind fun _ => resume (by simp)

theorem loose : Loose .reach (fun _ x y => x = y) Passing tracking where
  toStraight := straight
  part := part
  whole h := h
  andThen := bind_of
  reorder _ h := h
  ask _ hstate := same fun h => by rw [hstate h]
  relax h := h.relax (by simp)
  terminate h _ := leave h
  leap := leave
  label := label
  labels := labels
  start := start
  startThen := startThen
  startOrSkip := startThen
  ifReachable := ifReachable
  isReferenced _ := same fun h => by rw [(gives_isReferenced.mp h).2]
  resumeOrRethrow := resumeOrRethrow
  handlerEnd he hh := by
    refine (start he).bind fun joined => (startThen hh (leave .throw)).bind fun _ => ?_
    cases joined
    · exact (pure ()).relax (by simp)
    · exact resume he

theorem composes : Composes .reach (fun _ x y => x = y) Passing tracking :=
  loose.composes fun _ _ => loose.emitString (fun _ => rfl) same

theorem permits (site : Site) : Permits site .reach (fun _ => True) (fun _ => True)
    (fun _ x y => x = y) := by
  have happlies : ∀ {n} (x : Bool), Discipline.reach.raise^[n] x = Discipline.reach.raise x :=
    fun x => by simp [Discipline.reach]
  constructor <;> intros
  case chain =>
    cases (site.function.chain.getD .initial).call <;> first | trivial | exact happlies
  case invoke => exact ⟨fun _ _ => trivial, fun _ _ _ _ _ _ => happlies⟩
  case guard => exact ⟨happlies, happlies, happlies, happlies, happlies⟩
  all_goals first | trivial | exact happlies | exact ⟨fun _ _ => trivial, happlies⟩ |
    exact ⟨happlies, happlies⟩ | exact ⟨happlies, fun _ => rfl⟩

theorem walks (site : Site) : Walks site site.program .reach (fun _ => True) (fun _ => True)
    (fun _ x y => x = y) Passing tracking :=
  composes.walks (permits site) rfl

end Reaching

/-! ## Types -/

/-- What the constructor of the node makes of its parts. -/
def Expr.remade : Expr → Expr
  | .literal _ value => .ofLiteral value
  | .assign _ target value => .mkAssign target value
  | .compound _ op target value => .mkCompound op target value
  | .initField _ receiver d value => .mkInitField receiver d value
  | .binary _ op left right => .mkBinary op left right
  | .unary _ op operand => .mkUnary op operand
  | .and _ left right => .mkAnd left right
  | .or _ left right => .mkOr left right
  | .block _ stmts => .mkBlock stmts
  | .cond _ test onTrue none => .mkWhen test onTrue
  | .cond _ test onTrue (some onFalse) => .mkCond test onTrue onFalse
  | .loop _ test body => .mkLoop test body
  | .functionValue _ f => .mkFunctionValue f
  | .throw _ operand => .mkThrow operand
  | .ret _ value => .mkRet value
  | .attempt _ body clauses cleanup => .mkAttempt body clauses cleanup
  | e => e

/-- The constructor is given the type. -/
def Expr.isGivenTy : Expr → Bool
  | .uninitialized _ | .self _ | .variable .. | .field .. | .convert .. | .call .. | .invoke ..
  | .invokeSelf .. | .new .. => true
  | _ => false

/-- The node is as its constructor makes it, and is not given the type `nothing`. -/
structure Expr.IsMade (e : Expr) : Prop where
  remade : e.remade = e
  given : e.isGivenTy = true → e.ty ≠ .nothing

theorem Expr.IsMade.of_remade {e : Expr} (h : e.remade = e) (hg : e.isGivenTy = false) : e.IsMade :=
  ⟨h, fun hg' => absurd (hg.symm.trans hg') Bool.false_ne_true⟩

theorem Expr.IsMade.ty_eq {e : Expr} {ty : Ty} (h : e.IsMade) (hty : e.ty = ty) : e.remade.ty = ty := by
  rw [h.remade, hty]

def Node.IsMade : Node → Prop
  | .expr e => e.IsMade
  | _ => True

theorem Ty.isNothing_iff {ty : Ty} : ty.isNothing = true ↔ ty = .nothing := by
  cases ty <;> simp [Ty.isNothing]

theorem Expr.diverges_of_blockTy {stmts : List Stmt} (h : blockTy stmts = .nothing) :
    stmts.any Stmt.diverges = true := by
  unfold blockTy at h
  split at h
  · assumption
  · rename_i hany
    split at h
    · rename_i e hlast
      refine absurd ?_ hany
      exact List.any_eq_true.mpr ⟨_, List.mem_of_getLast? hlast, Ty.isNothing_iff.mpr h⟩
    · cases h

theorem Ty.all_nothing {tys : List Ty} (h : (tys.find? (!·.isNothing)).getD .nothing = .nothing) :
    ∀ ty ∈ tys, ty = .nothing := by
  cases hfound : tys.find? (!·.isNothing) with
  | none =>
    intro ty hty
    have hnone := List.find?_eq_none.mp hfound ty hty
    exact isNothing_iff.mp (by simpa using hnone)
  | some ty =>
    rw [hfound] at h
    have hsome := List.find?_some hfound
    rw [show ty = .nothing from h] at hsome
    cases hsome

theorem Expr.IsMade.attempt_nothing {ty : Ty} {body : Expr} {clauses : List Clause} {cleanup : Option Expr}
    (h : (Expr.attempt ty body clauses cleanup).IsMade) (hty : ty = .nothing) :
    body.ty = .nothing ∧ ∀ c ∈ clauses, c.body.ty = .nothing := by
  have htys := List.forall_mem_cons.mp (Ty.all_nothing (h.ty_eq hty))
  exact ⟨htys.1, List.forall_mem_map.mp htys.2⟩

/-! ## Expressions -/

namespace Site

open Reaching

variable {site : Site} {regions : List Region} {x : Bool}

theorem Encloses.sameRegions (h : site.Encloses regions) :
    ∀ x, SameRegions .reach Passing regions regions x := by
  induction h with
  | outside => exact fun _ => trivial
  | inside cleanup isOpen _ ih =>
    intro x
    refine ⟨rfl, fun y hy => ?_, ?_⟩
    · cases cleanup with
      | none => exact pure ()
      | some e =>
        exact (walks site).lower (o := site.function.lowered) e .effect (fun _ _ => trivial)
          (.inl fun _ => rfl) hy
    · split
      · exact ⟨⟨0⟩, x, rfl, ih x⟩
      · exact ih x

theorem passing_lower (h : site.Encloses regions) (e : Expr) (mode : Mode) :
    Passing x x (site.lower e regions mode) (site.lower e regions mode) := by
  have hlower := (walks site).lower (o := site.function.lowered) e mode (fun _ _ => trivial)
    (.inl fun _ => rfl) (h.sameRegions x)
  rw [Discipline.lift_reach] at hlower
  exact hlower

theorem passing_discard (mode : Mode) : Passing x x (Lower.discard mode) (Lower.discard mode) := by
  have hdiscard := straight.discard (x := x) mode
  rw [Discipline.lift_reach] at hdiscard
  exact hdiscard

/-- A cleanup that is entered only with an exception does not go on. -/
theorem cleanupEnd_unwinding {m : Lower Unit} (hm : Passing true true m m) :
    Tracked.Ends .reach tracking true false (cleanupEnd m) (cleanupEnd m) := by
  intro known due exit exit' handler handler' he hh
  refine label true fun cleanup _ => ?_
  have hnull : Passing false true (Lower.emit .null) (Lower.emit .null) :=
    (straight.push (x := false) ⟨rfl, rfl⟩).relax (by simp [Discipline.reach])
  refine (startThen (.tail _ he) ((part hnull).bind fun _ => leave (.branch (by simp)))).bind fun _ => ?_
  refine (startThen (.tail _ hh) ((part (straight.emitAll (x := true) ?_)).bind fun _ =>
    leave (.branch (by simp)))).bind fun _ => ?_
  · simp [Inst.isTerminator]
  refine startThen (z := true) (by simp) ((part hm).bind fun _ => ifReferenced (.tail _ he) ?_)
  exact (leave (.throw (x := true))).relax (by simp)

mutual

theorem lower_nothing : ∀ (e : Expr) {regions : List Region} (mode : Mode), e.All Node.IsMade →
    e.ty = .nothing → site.Encloses regions → Diverges (site.lower e regions mode)
  | .literal _ value, _, _, he, hty, _ => by cases value <;> cases he.node.ty_eq hty
  | .uninitialized _, _, _, he, hty, _ | .self _, _, _, he, hty, _
  | .variable _ _, _, _, he, hty, _ | .field _ _ _, _, _, he, hty, _
  | .convert _ _, _, _, he, hty, _ | .call _ _ _ _, _, _, he, hty, _
  | .invoke _ _ _ _ _, _, _, he, hty, _ | .invokeSelf _ _ _ _, _, _, he, hty, _
  | .new _ _ _ _, _, _, he, hty, _ => absurd hty (he.node.given rfl)
  | .assign _ target _, _, _, he, hty, _ => by
    have ht := (Expr.all_assign.mp he).2.1
    have hty : target.ty = .nothing := he.node.ty_eq hty
    cases target with
    | «variable» | field => exact absurd hty (ht.node.given rfl)
    | _ => exact straight.stop rfl
  | .compound _ _ target _, _, _, he, hty, _ => by
    have ht := (Expr.all_compound.mp he).2.1
    have hty : target.ty = .nothing := he.node.ty_eq hty
    cases target with
    | «variable» | field => exact absurd hty (ht.node.given rfl)
    | _ => exact (walks site).binaryInst fun _ _ => straight.stop rfl
  | .initField _ _ _ _, _, _, he, hty, _ | .and _ _ _, _, _, he, hty, _
  | .or _ _ _, _, _, he, hty, _ | .cond _ _ _ none, _, _, he, hty, _
  | .loop _ _ _, _, _, he, hty, _ | .functionValue _ _, _, _, he, hty, _ => by
    cases he.node.ty_eq hty
  | .binary _ op left right, _, mode, he, hty, hr => by
    obtain ⟨hnode, hl, _⟩ := Expr.all_binary.mp he
    have hleft : left.ty = .nothing := by
      have hmade : (if op.isComparison then .boolean else left.ty) = Ty.nothing := hnode.ty_eq hty
      split at hmade
      · cases hmade
      · exact hmade
    refine (lower_nothing left .value hl hleft hr).bind fun _ => (passing_lower hr right .value).bind fun _ => ?_
    exact (walks site).binaryInst fun i hi => (hi false).bind fun _ =>
      passing_discard mode
  | .unary _ op operand, _, mode, he, hty, hr => by
    obtain ⟨hnode, ho⟩ := Expr.all_unary.mp he
    refine (lower_nothing operand .value ho (hnode.ty_eq hty) hr).bind fun _ => ?_
    refine (straight.orFail ..).bind_of fun i _ _ hi => ?_
    exact (straight.step (n := 1) (k := 1) (UnaryOp.isPlain_inst (gives_orFail.mp hi).1)).bind fun _ =>
      passing_discard mode
  | .block _ stmts, _, mode, he, hty, hr => by
    obtain ⟨hnode, hs⟩ := Expr.all_block.mp he
    exact lowerStmts_nothing stmts mode hs (Expr.diverges_of_blockTy (hnode.ty_eq hty)) hr
  | .cond _ test onTrue (some onFalse), _, mode, he, hty, hr => by
    obtain ⟨hnode, _, ho, hf⟩ := Expr.all_cond.mp he
    have hmade : (if onTrue.ty.isNothing then onFalse.ty else onTrue.ty) = .nothing := hnode.ty_eq hty
    have hboth : onTrue.ty = .nothing ∧ onFalse.ty = .nothing := by
      split at hmade
      · exact ⟨Ty.isNothing_iff.mp ‹_›, hmade⟩
      · exact absurd (Ty.isNothing_iff.mpr hmade) ‹_›
    exact (passing_lower hr test .value).bind fun _ => loose.twoArms
      (lower_nothing onTrue mode ho hboth.1 hr) (lower_nothing onFalse mode hf hboth.2 hr)
  | .throw _ operand, _, _, _, _, hr =>
    (passing_lower hr operand .value).bind fun _ => loose.throw (x := true)
  | .ret _ none, _, _, _, _, hr => by
    obtain ⟨y, hy, hleave⟩ := loose.leaveAll (hr.sameRegions true)
    exact (straight.push (x := true) ⟨rfl, rfl⟩).bind fun _ => hleave.bind fun _ => loose.ret hy
  | .ret _ (some value), _, _, _, _, hr => by
    obtain ⟨y, hy, hleave⟩ := loose.leaveAll (hr.sameRegions true)
    exact (passing_lower hr value .value).bind fun _ => ((walks site).coerce trivial).bind fun _ =>
      hleave.bind fun _ => loose.ret hy
  | .attempt _ body [] none, _, mode, he, hty, hr => by
    obtain ⟨hnode, hb, _⟩ := Expr.all_attempt_none.mp he
    exact lower_nothing body mode hb (hnode.attempt_nothing hty).1 hr
  | .attempt _ body (clause :: rest) none, _, mode, he, hty, hr => by
    obtain ⟨hnode, hb, hc⟩ := Expr.all_attempt_none.mp he
    obtain ⟨hbody, hclauses⟩ := hnode.attempt_nothing hty
    refine loose.protect (fun _ => lower_nothing body mode hb hbody (.inside none true hr)) ?_
    exact (walks site).handlerSlots fun a b _ _ => Tracked.Goes.thenEnds
      (lowerClauses_nothing (clause :: rest) mode hc hclauses hr) fun _ _ _ _ _ _ => loose.handlerEnd
  | .attempt _ body [] (some cleanup), _, mode, he, hty, hr => by
    obtain ⟨hnode, hb, _⟩ := Expr.all_attempt.mp he
    have hbody := (hnode.attempt_nothing hty).1
    exact loose.protect (fun _ => lower_nothing body mode hb hbody (.inside (some cleanup) true hr))
      (cleanupEnd_unwinding (passing_lower hr cleanup .effect))
  | .attempt _ body (clause :: rest) (some cleanup), _, mode, he, hty, hr => by
    obtain ⟨hnode, hb, hc, _⟩ := Expr.all_attempt.mp he
    obtain ⟨hbody, hclauses⟩ := hnode.attempt_nothing hty
    refine loose.protect (fun _ => lower_nothing body mode hb hbody (.inside (some cleanup) true hr)) ?_
    exact (walks site).handlerSlots fun a b _ _ => Tracked.Goes.thenEnds
      (lowerClauses_nothing (clause :: rest) mode hc hclauses (.inside (some cleanup) false hr))
      (cleanupEnd_unwinding (passing_lower hr cleanup .effect))

theorem lowerStmts_nothing : ∀ (stmts : List Stmt) {regions : List Region} (mode : Mode),
    AllStmts Node.IsMade stmts → stmts.any Stmt.diverges = true → site.Encloses regions →
    Diverges (site.lowerStmts stmts regions mode)
  | [], _, _, _, h, _ => by cases h
  | [.expr e], _, mode, hs, h, hr =>
    lower_nothing e mode (allStmts_expr.mp hs).2.1 (Ty.isNothing_iff.mp (by simpa [Stmt.diverges] using h)) hr
  | .expr e :: next :: rest, _, mode, hs, h, hr => by
    obtain ⟨_, he, hrest⟩ := allStmts_expr.mp hs
    cases hty : e.ty.isNothing with
    | true =>
      exact (lower_nothing e .effect he (Ty.isNothing_iff.mp hty) hr).bind fun _ =>
        passing_lower hr (.block .unit (next :: rest)) mode
    | false =>
      rw [List.any_cons, Stmt.diverges, hty, Bool.false_or] at h
      exact (passing_lower hr e .effect).bind fun _ => lowerStmts_nothing (next :: rest) mode hrest h hr
  | .declare _ none :: rest, _, mode, hs, h, hr =>
    lowerStmts_nothing rest mode (allStmts_declare.mp hs).2 h hr
  | .declare d (some init) :: rest, regions, mode, hs, h, hr => by
    obtain ⟨_, hi, hrest⟩ := allStmts_define.mp hs
    obtain ⟨y, hinit, hrest⟩ : ∃ y, Passing true y (site.lower init regions .value) (site.lower init regions .value) ∧
        Passing y false (site.lowerStmts rest regions mode) (site.lowerStmts rest regions mode) := by
      cases hty : init.ty.isNothing with
      | true =>
        exact ⟨false, lower_nothing init .value hi (Ty.isNothing_iff.mp hty) hr,
          passing_lower hr (.block .unit rest) mode⟩
      | false =>
        rw [List.any_cons, Stmt.diverges, hty, Bool.false_or] at h
        exact ⟨true, passing_lower hr init .value, lowerStmts_nothing rest mode hrest h hr⟩
    have w := walks site
    refine hinit.bind fun _ => (w.defnAt rfl d).bind fun _ => (w.coerce trivial).bind fun _ => ?_
    exact (w.slot rfl d).bind fun _ => (straight.emit rfl rfl).bind fun _ => hrest
  | .function _ :: rest, _, mode, hs, h, hr =>
    lowerStmts_nothing rest mode (allStmts_function.mp hs).2 h hr

theorem lowerClauses_nothing {a b : Nat} :
    ∀ (clauses : List Clause) {regions : List Region} (mode : Mode),
      AllClauses Node.IsMade clauses → (∀ c ∈ clauses, c.body.ty = .nothing) → site.Encloses regions →
      Tracked.Goes .reach tracking true false (site.lowerClauses a b clauses regions mode)
        (site.lowerClauses a b clauses regions mode)
  | [], _, _, _, _, _ => fun known _ _ _ _ _ _ _ _ _ hn hk => hk _ _ _ (.refl known) hn
  | .mk binding guard body :: rest, _, mode, hall, hty, hr => by
    obtain ⟨_, he, hrest⟩ := allClauses_cons.mp hall
    obtain ⟨hbody, htys⟩ := List.forall_mem_cons.mp hty
    exact loose.clause (straight.emitAll (by simp [Inst.isTerminator]))
      ((walks site).bindException binding)
      (lower_nothing body mode he hbody hr) (lowerClauses_nothing rest mode hrest htys hr)

end

end Site

/-- An expression that its constructors give the type `nothing` does not complete: after it no code
is reached, so that no instruction is added and no block is ended until a label is started. -/
theorem nothing_is_not_passed {site : Site} {regions : List Region} {e : Expr} {mode : Mode}
    {s t : LowerState} (hr : site.Encloses regions) (he : e.All Node.IsMade) (hty : e.ty = .nothing)
    (h : (site.lower e regions mode).Gives s () t) :
    t.draft.isReachable = false ∧ ∀ i, t.draft.emit i = t.draft ∧ t.draft.terminate i = t.draft := by
  have hspares : s.draft.Spares 0 ∅ (some true) := ⟨Nat.zero_le _, fun hn => (hn rfl).elim, fun _ hl => hl.elim⟩
  have hmarked : Marked 0 ∅ [] := ⟨fun _ hl => hl.elim, List.forall_mem_nil _, List.forall_mem_nil _⟩
  have hdead : t.draft.current = none :=
    ((Site.lower_nothing e mode he hty hr).keeps hmarked h hspares).current (by simp)
  refine ⟨by rw [Draft.isReachable, hdead]; rfl, fun i => ⟨?_, ?_⟩⟩
  · rw [Draft.emit, hdead]
  · rw [Draft.terminate, hdead]

/-- The expression `if (true) return else throw null`. -/
def Expr.exiting : Expr :=
  .mkCond (.ofLiteral (.boolean true)) (.mkRet none) (.mkThrow (.ofLiteral .null))

theorem nothing_is_not_passed_exiting : ∃ t, t.draft.order = #[0, 1, 2] ∧
    t.draft.isReachable = false ∧
    (Site.lower ⟨.waiting none, .waiting, []⟩ .exiting [] .effect).Gives ⟨.initial, #[]⟩ () t := by
  have hmade : Expr.exiting.All Node.IsMade :=
    Expr.all_cond.mpr ⟨.of_remade rfl rfl, Expr.all_literal.mpr (.of_remade rfl rfl),
      List.forall_mem_singleton.mpr (.of_remade rfl rfl),
      Expr.all_throw.mpr ⟨.of_remade rfl rfl, Expr.all_literal.mpr (.of_remade rfl rfl)⟩⟩
  have horder : (Site.lower ⟨.waiting none, .waiting, []⟩ .exiting [] .effect ⟨.initial, #[]⟩).map
      (fun r => r.2.draft.order) = .ok #[0, 1, 2] := by cbv
  cases h : Site.lower ⟨.waiting none, .waiting, []⟩ .exiting [] .effect ⟨.initial, #[]⟩ with
  | error e =>
    rw [h] at horder
    cases horder
  | ok r =>
    rw [h] at horder
    exact ⟨r.2, Except.ok.inj horder, (nothing_is_not_passed .outside hmade rfl h).1, h⟩

end StackBackend
