import Mathlib.Data.Nat.SuccPred
import StackBackend.Proofs.Lowering.FunctionBody
import StackBackend.Proofs.Lowering.StackExpr

/-! The stack at the start of each block of a function. There is one height for every block
that all ways into it agree on, provided that whatever has a cleanup is asked for its value,
and one list of open regions, with no such proviso. Both come from following the lowering,
with labels then replaced by the numbers of their blocks. -/

namespace StackBackend

open List

namespace Discipline

variable {F : Type} {D : Discipline F} {frames frames' : List F} {x y : F} {code : List Inst}
  {i : Inst}

/-- Every block starts from a fact of its own, and the first from the given one. -/
def Admits (D : Discipline F) (start : F) (blocks : List Block) : Prop :=
  ∃ frames : List F, frames.length = blocks.length ∧ frames[0]? = some start ∧
    ∀ (k : Nat) (b : Block) (x : F), blocks[k]? = some b → frames[k]? = some x →
      D.Checks frames x b.instructions

/-! ## Other labels -/

/-- What other labels do to the facts. -/
structure Renames (D : Discipline F) (f : BlockId → BlockId) (r : F → F) : Prop where
  raise : ∀ x, r (D.raise x) = D.raise (r x)
  guard : ∀ h x, r (D.guard h x) = D.guard (f h) (r x)
  base : ∀ x, D.IsBase x → D.IsBase (r x)

section

variable {f : BlockId → BlockId} {r : F → F} (hr : D.Renames f r)
include hr

theorem Moves.rename (h : D.Moves i x y) : D.Moves i (r x) (r y) := by
  have hraised : ∀ n z, r (D.raise^[n] z) = D.raise^[n] (r z) := fun n =>
    Function.Semiconj.iterate_right hr.raise n
  cases h with
  | plain hcounts =>
    rw [hraised, hraised]
    exact .plain hcounts
  | applied happlied htakes =>
    rw [hraised, hr.raise]
    exact .applied happlied htakes

theorem Leads.rename (h : D.Leads x code y) :
    D.Leads (r x) (code.map (Inst.mapTargets f)) (r y) := by
  induction h with
  | nil x => exact .nil (r x)
  | cons first _ ih =>
    rw [map_cons, Inst.mapTargets_of_not_terminator first.isTerminator]
    exact .cons (first.rename hr) ih

theorem Leaps.rename (h : D.Leaps frames i x)
    (hframes : ∀ l ∈ i.successors, ∀ z, frames[l.index]? = some z →
      frames'[(f l).index]? = some (r z)) : D.Leaps frames' (i.mapTargets f) (r x) := by
  cases h with
  | branch htarget => exact .branch (hframes _ (by simp [Inst.successors]) _ htarget)
  | branchIf htrue hfalse =>
    rw [hr.raise]
    exact .branchIf (hframes _ (by simp [Inst.successors]) _ htrue)
      (hframes _ (by simp [Inst.successors]) _ hfalse)
  | pushTry hbody hhandler =>
    refine .pushTry ?_ ?_
    · rw [← hr.guard]
      exact hframes _ (by simp [Inst.successors]) _ hbody
    · rw [← hr.raise]
      exact hframes _ (by simp [Inst.successors]) _ hhandler
  | popTry htarget =>
    rw [hr.guard]
    exact .popTry (hframes _ (by simp [Inst.successors]) _ htarget)
  | ret hbase =>
    rw [hr.raise]
    exact .ret (hr.base _ hbase)
  | throw =>
    rw [hr.raise]
    exact .throw

end

theorem Leads.not_terminator (h : D.Leads x code y) : ∀ i ∈ code, i.isTerminator = false := by
  induction h with
  | nil _ => nofun
  | cons first _ ih => exact forall_mem_cons.mpr ⟨first.isTerminator, ih⟩

/-! ## Blocks -/

namespace Fits

variable {d : Draft} {l : BlockId}

theorem initial (x : F) : D.Fits [x] .initial x where
  wf := Draft.wf_initial
  size := rfl
  current l z hl hz := by
    have hzero : l.index = 0 := (Option.some.inj hl).symm
    rw [hzero] at hz
    cases hz
    rw [Draft.code, Draft.stateOf_initial]
    split <;> exact .nil x
  others l z hl hz := by
    have hlt : l.index < [x].length := (List.getElem?_eq_some_iff.mp hz).1
    exact (hl (congrArg some (Nat.lt_one_iff.mp hlt).symm)).elim

theorem checks (h : D.Fits frames d y) (hd : d.Finished) (hl : d.isStarted l = true)
    (hx : frames[l.index]? = some x) : D.Checks frames x (d.code l) := by
  rcases h.leads_or_checks hx with ⟨z, hleads⟩ | hchecks
  · obtain ⟨before, last, hcode, hterm, _⟩ := Draft.code_split hd hl
    have hnot := hleads.not_terminator last (by rw [hcode]; simp)
    rw [hterm] at hnot
    cases hnot
  · exact hchecks

theorem admits (h : D.Fits frames d y) (hd : d.Finished) {r : F → F} (hr : D.Renames d.number r)
    (hx : frames[0]? = some x) : D.Admits (r x) d.blocks := by
  -- The blocks take over the facts of their labels, in the order of the blocks.
  have hfact : ∀ (k l : Nat) (z : F), d.order.toList[k]? = some l → frames[l]? = some z →
      (d.order.toList.map fun l => r (frames[l]?.getD x))[k]? = some (r z) := by
    intro k l z hk hz
    rw [List.getElem?_map, hk, Option.map_some, hz]
    rfl
  refine ⟨d.order.toList.map fun l => r (frames[l]?.getD x), ?_, ?_, fun k b z hb hz => ?_⟩
  · rw [length_map, Draft.length_blocks]
  · obtain ⟨k, hk, hnumber, _⟩ := Draft.exists_number hd.wf hd.wf.entry_started
    rw [Draft.number_entry hd.wf] at hnumber
    cases hnumber
    exact hfact 0 _ x hk hx
  · rw [Draft.getElem?_blocks] at hb
    obtain ⟨l, hk, rfl⟩ := Option.map_eq_some_iff.mp hb
    have hstarted : d.isStarted ⟨l⟩ = true := (hd.wf.mem_order l).mp (mem_of_getElem? hk)
    have hlt : l < frames.length := h.size ▸ Draft.lt_size_of_isStarted hstarted
    have hl := List.getElem?_eq_getElem hlt
    cases (hfact k l _ hk hl).symm.trans hz
    obtain ⟨before, last, w, hcode, hbefore, hlast⟩ := h.checks hd hstarted hl
    refine ⟨before.map (Inst.mapTargets d.number), last.mapTargets d.number, r w, ?_,
      hbefore.rename hr, hlast.rename hr fun t ht u hu => ?_⟩
    · simp [Draft.blockAt, hcode]
    · have htarget : d.Targets ⟨l⟩ t := ⟨last, by rw [hcode]; simp, ht⟩
      obtain ⟨j, hj, hnumber, _⟩ :=
        Draft.exists_number hd.wf (hd.started t (hd.wf.referenced_of_targets _ t htarget))
      rw [hnumber]
      exact hfact j _ u hj hu

end Fits

end Discipline

theorem LoweredFrom.admits {p : Program} {f : FunctionDecl} {strings : Array String} {body : Body}
    {t : LowerState} (h : LoweredFrom p f strings body t) {F : Type} {D : Discipline F} {x : F}
    (hf : Site.Feeds ⟨p, f, body.params ++ body.locals⟩ D.takes) (hx : D.IsBase x)
    (hc : D.Flat ∨ f.CleanupsValued) {r : F → F} (hr : D.Renames t.draft.number r) :
    D.Admits (r x) body.blocks := by
  have hentry : D.Carries [x] (Site.lowerEntry ⟨p, f, body.params ++ body.locals⟩) x x :=
    .lowerEntry hf hx hc
  obtain ⟨frames, hframes, ht⟩ := hentry.fits prefix_rfl h.entry (.initial x)
  rw [h.blocks]
  exact ht.admits h.finished hr (Discipline.getElem?_of_isPrefix hframes rfl)

/-! ## Heights -/

/-- How many values are on the stack. -/
def Discipline.heights (takes : Inst → Nat → Prop) : Discipline Nat where
  raise := Nat.succ
  guard _ x := x
  IsBase _ := True
  takes
  guard_raise _ _ := rfl
  isBase_raise _ _ := trivial

/-- Every block has one height at its start, which all ways into it bring, if whatever has a
cleanup is lowered for its value. An expression adds its value, or nothing if it is lowered
for its effect. -/
theorem lowered_heights_agree {p : Program} {options : CompileOptions} {f : FunctionDecl}
    {strings pool : Array String} {body : Body}
    (hcode : lowerFunction p options f strings = .ok (body, pool)) {takes : Inst → Nat → Prop}
    (hf : Site.Feeds ⟨p, f, body.params ++ body.locals⟩ takes) (hc : f.CleanupsValued) :
    (Discipline.heights takes).Admits 0 body.blocks ∧
    ∀ (e : Expr) (regions : List Region) (mode : Mode) (known : List Nat) (n : Nat),
      e.All (Node.Feeds ⟨p, f, body.params ++ body.locals⟩ takes) → e.CleanupsValued mode →
      (Discipline.heights takes).Exits regions n →
      (Discipline.heights takes).Carries known
        (Site.lower ⟨p, f, body.params ++ body.locals⟩ e regions mode) n
        (match mode with
          | .value => n + 1
          | .effect => n) := by
  obtain ⟨t, hfrom, rfl⟩ := lowerFunction_ok hcode
  refine ⟨?_, fun e regions mode known n he hcleanups hexits => ?_⟩
  · exact hfrom.admits (D := .heights takes) (r := id) hf trivial (.inr hc)
      ⟨fun _ => rfl, fun _ _ => rfl, fun _ => id⟩
  · have hcarries : (Discipline.heights takes).Carries known
        (Site.lower ⟨p, f, body.params ++ body.locals⟩ e regions mode) n
        ((Discipline.heights takes).lift mode n) :=
      .lower hf e regions mode he (.inr hcleanups) hexits
    cases mode with
    | value => exact hcarries
    | effect => exact hcarries

/-! Functions with cleanups, one whose value is returned and one whose value is dropped:
`try { f() + 1 } finally { 2 }` and `try { 1 } finally { 2 }; 3`. -/

def FunctionDecl.cleaning (body : Expr) : FunctionDecl :=
  { id := ⟨10⟩, name := "f", kind := .global, scope := ⟨0⟩, returnTy := .i64, typeParams := [],
    params := [], chain := none, isBuiltin := false, isFinal := false, lowered := none,
    body := some body }

def Expr.valued : Expr :=
  .mkAttempt (.mkBinary .add (.call .i64 ⟨10⟩ [] []) (.ofLiteral (.i64 1))) []
    (some (.ofLiteral (.i64 2)))

def Expr.dropped : Expr :=
  .mkBlock [.expr (.mkAttempt (.ofLiteral (.i64 1)) [] (some (.ofLiteral (.i64 2)))),
    .expr (.ofLiteral (.i64 3))]

def Body.valued : Body :=
  { params := [], locals := []
    blocks := [
      ⟨⟨0⟩, [.pushTry ⟨1⟩ ⟨3⟩]⟩,
      ⟨⟨1⟩, [.call ⟨10⟩, .i64 1, .int .add .i64, .popTry ⟨2⟩]⟩,
      ⟨⟨2⟩, [.null, .branch ⟨4⟩]⟩,
      ⟨⟨3⟩, [.uninitialized, .swap, .branch ⟨4⟩]⟩,
      ⟨⟨4⟩, [.i64 2, .drop, .dup, .null, .sameObject, .branchIf ⟨5⟩ ⟨6⟩]⟩,
      ⟨⟨5⟩, [.drop, .ret]⟩,
      ⟨⟨6⟩, [.throw]⟩] }

def Body.dropped : Body :=
  { params := [], locals := []
    blocks := [
      ⟨⟨0⟩, [.pushTry ⟨1⟩ ⟨3⟩]⟩,
      ⟨⟨1⟩, [.i64 1, .drop, .popTry ⟨2⟩]⟩,
      ⟨⟨2⟩, [.null, .branch ⟨4⟩]⟩,
      ⟨⟨3⟩, [.uninitialized, .swap, .branch ⟨4⟩]⟩,
      ⟨⟨4⟩, [.i64 2, .drop, .dup, .null, .sameObject, .branchIf ⟨5⟩ ⟨6⟩]⟩,
      ⟨⟨5⟩, [.drop, .i64 3, .ret]⟩,
      ⟨⟨6⟩, [.throw]⟩] }

/-- A type object is made from two operands, and the function takes none. -/
def Inst.Takes (i : Inst) (n : Nat) : Prop :=
  n = if i = .call typeConstructor then 2 else 0

theorem Expr.feeds_valued (slots : List LocalSlot) :
    Expr.valued.All (Node.Feeds ⟨.empty, .cleaning .valued, slots⟩ Inst.Takes) := by
  have hcall : Inst.Takes (.call ⟨10⟩) 0 := rfl
  refine Expr.all_attempt.mpr ⟨⟨trivial, trivial⟩, Expr.all_binary.mpr ⟨⟨trivial, trivial⟩, ?_, ?_⟩,
    allClauses_nil, ?_⟩
  · exact Expr.all_call.mpr ⟨⟨trivial, trivial, hcall⟩, allArgs_nil⟩
  · exact Expr.all_literal.mpr ⟨trivial, trivial⟩
  · exact Expr.all_literal.mpr ⟨trivial, trivial⟩

theorem FunctionDecl.feeds_valued (slots : List LocalSlot) :
    Site.Feeds ⟨.empty, .cleaning .valued, slots⟩ Inst.Takes where
  exprs e he := by
    cases mem_singleton.mp he
    exact Expr.feeds_valued slots
  defnTy _ _ h := nomatch h
  returnTy := trivial
  superArgs _ _ _ h := nomatch h
  superCall _ _ _ _ h := nomatch h
  chain _ _ h := nomatch h
  initializer _ _ _ h := nomatch h
  typeof _ h := nomatch h
  subtype _ h := nomatch h
  construct := rfl

theorem lowered_heights_agree_valued :
    lowerFunction .empty .standard (.cleaning .valued) #[] = .ok (.valued, #[]) ∧
    (FunctionDecl.cleaning .valued).CleanupsValued ∧
    (Discipline.heights Inst.Takes).Admits 0 Body.valued.blocks := by
  have hcode : lowerFunction .empty .standard (.cleaning .valued) #[] = .ok (.valued, #[]) :=
    Checked.eq_ok_of_toOption (by decide +kernel)
  have hvalued : (FunctionDecl.cleaning .valued).CleanupsValued := by
    refine ⟨trivial, fun body hbody => ?_⟩
    cases hbody
    exact ⟨rfl, ⟨trivial, trivial⟩, trivial, trivial⟩
  exact ⟨hcode, hvalued, (lowered_heights_agree hcode (FunctionDecl.feeds_valued _) hvalued).1⟩

theorem Discipline.Checks.last {F : Type} {D : Discipline F} {frames : List F} {x : F}
    {code : List Inst} (h : D.Checks frames x code) (before : List Inst) (last : Inst)
    (hcode : code = before ++ [last]) : ∃ y, D.Leads x before y ∧ D.Leaps frames last y := by
  obtain ⟨before', last', y, rfl, hbefore, hlast⟩ := h
  obtain ⟨rfl, hsame⟩ := append_inj' hcode rfl
  cases hsame
  exact ⟨y, hbefore, hlast⟩

theorem Discipline.Leads.height_eq {takes : Inst → Nat → Prop} {code : List Inst} {m m' : Nat}
    (h : (Discipline.heights takes).Leads m code m') (counts : List (Nat × Nat))
    (hcounts : code.map Inst.counts? = counts.map some) :
    m' + (counts.map Prod.fst).sum = m + (counts.map Prod.snd).sum := by
  have hraised : ∀ n x, (Discipline.heights takes).raise^[n] x = x + n := fun n x =>
    Nat.succ_iterate x n
  induction h generalizing counts with
  | nil m =>
    cases counts with
    | nil => rfl
    | cons _ _ => cases hcounts
  | @cons i is x y z first _ ih =>
    cases counts with
    | nil => cases hcounts
    | cons count counts =>
      obtain ⟨hi, hrest⟩ := List.cons.inj hcounts
      have hstep : y + count.1 = x + count.2 := by
        cases first with
        | plain hown =>
          cases hown.symm.trans hi
          rw [hraised, hraised]
          omega
        | applied happlied _ => cases i <;> cases happlied <;> cases hi
      have hlater := ih counts hrest
      simp only [map_cons, sum_cons]
      omega

/-- A cleanup whose value is dropped is entered with one value from the body and with two from
the handler. -/
theorem dropped_cleanup_heights_differ :
    lowerFunction .empty .standard (.cleaning .dropped) #[] = .ok (.dropped, #[]) ∧
    ∀ takes, ¬ (Discipline.heights takes).Admits 0 Body.dropped.blocks := by
  refine ⟨Checked.eq_ok_of_toOption (by decide +kernel), ?_⟩
  rintro takes ⟨heights, _, hstart, hchecks⟩
  obtain ⟨_, hleads, hleaps⟩ := (hchecks 0 _ 0 rfl hstart).last [] (.pushTry ⟨1⟩ ⟨3⟩) rfl
  cases hleads
  cases hleaps with | pushTry hbody hhandler
  -- The body, then the way out of the region.
  obtain ⟨a, hleads, hleaps⟩ := (hchecks 1 _ 0 rfl hbody).last [.i64 1, .drop] (.popTry ⟨2⟩) rfl
  have ha : a = 0 := by simpa using hleads.height_eq [(0, 1), (1, 0)] rfl
  have hnormal : heights[2]? = some 0 := by
    cases hleaps with | popTry htarget
    exact htarget.trans (congrArg some ha)
  obtain ⟨b, hleads, hleaps⟩ := (hchecks 2 _ 0 rfl hnormal).last [.null] (.branch ⟨4⟩) rfl
  have hb : b = 1 := by simpa using hleads.height_eq [(0, 1)] rfl
  cases hleaps with | branch hjoin
  -- The handler starts with the exception.
  obtain ⟨c, hleads, hleaps⟩ :=
    (hchecks 3 _ 1 rfl hhandler).last [.uninitialized, .swap] (.branch ⟨4⟩) rfl
  have hc : c + 2 = 1 + 3 := by simpa using hleads.height_eq [(0, 1), (2, 2)] rfl
  cases hleaps with | branch hjoin'
  have hsame : b = c := Option.some.inj (hjoin.symm.trans hjoin')
  omega

/-! ## Regions -/

/-- The handlers of the regions that are open. -/
def Discipline.handlers : Discipline (List BlockId) where
  raise := id
  guard := List.cons
  IsBase opened := opened = []
  takes _ _ := True
  guard_raise _ _ := rfl
  isBase_raise _ := id

mutual
theorem Ty.feeds_any : ∀ ty : Ty, ty.Feeds fun _ _ => True
  | .object _ args _ => ⟨trivial, tysFeed_any args⟩
  | .variable _ | .unit | .boolean | .i8 | .i16 | .i32 | .i64 | .f32 | .f64 | .nothing | .null =>
    trivial
theorem tysFeed_any : ∀ tys : List Ty, TysFeed (fun _ _ => True) tys
  | [] => trivial
  | ty :: rest => ⟨ty.feeds_any, tysFeed_any rest⟩
end

theorem Site.feeds_any (site : Site) : site.Feeds fun _ _ => True where
  exprs e _ node _ := by
    cases node with
    | expr e =>
      refine ⟨e.ty.feeds_any, ?_⟩
      cases e <;> simp [Expr.OwnFeeds, tysFeed_any]
    | stmt _ => trivial
    | clause _ => trivial
  defnTy _ defn _ := defn.ty.feeds_any
  returnTy := site.function.returnTy.feeds_any
  superArgs _ _ st _ _ := tysFeed_any st.args
  superCall _ _ _ _ _ _ _ _ := trivial
  chain _ _ _ _ := by cases (site.function.chain.getD .initial).call <;> trivial
  initializer _ _ _ _ _ _ := trivial
  typeof _ _ := trivial
  subtype _ _ := trivial
  construct := trivial

/-- What an instruction asks of the regions that are open where it stands, and of those at the
start of its targets. -/
def Inst.Balanced (starts : List (List BlockId)) (opened : List BlockId) : Inst → Prop
  | .pushTry b h => starts[b.index]? = some (h :: opened) ∧ starts[h.index]? = some opened
  | .popTry b => ∃ h rest, opened = h :: rest ∧ starts[b.index]? = some rest
  | .branch b => starts[b.index]? = some opened
  | .branchIf a b => starts[a.index]? = some opened ∧ starts[b.index]? = some opened
  | .ret => opened = []
  | _ => True

theorem Inst.Balanced.of_not_terminator {starts : List (List BlockId)} {opened : List BlockId}
    {i : Inst} (h : i.isTerminator = Bool.false) : i.Balanced starts opened := by
  cases i <;> trivial

namespace Discipline

variable {starts : List (List BlockId)} {x y : List BlockId} {code : List Inst} {i : Inst}

theorem Leads.eq_of_handlers (h : handlers.Leads x code y) : y = x := by
  have hraised : ∀ n z, handlers.raise^[n] z = z := fun n z => congrFun (Function.iterate_id n) z
  induction h with
  | nil x => rfl
  | cons first _ ih =>
    rw [ih]
    cases first with
    | plain _ => rw [hraised, hraised]
    | applied _ _ =>
      rw [hraised]
      rfl

theorem Leaps.balanced (h : handlers.Leaps starts i x) : i.Balanced starts x := by
  cases h with
  | branch htarget => exact htarget
  | branchIf htrue hfalse => exact ⟨htrue, hfalse⟩
  | pushTry hbody hhandler => exact ⟨hbody, hhandler⟩
  | popTry htarget => exact ⟨_, _, rfl, htarget⟩
  | ret hbase => exact hbase
  | throw => trivial

theorem Checks.balanced (h : handlers.Checks starts x code) : ∀ i ∈ code, i.Balanced starts x := by
  obtain ⟨before, last, y, rfl, hbefore, hlast⟩ := h
  intro i hi
  rcases mem_append.mp hi with hi | hi
  · exact .of_not_terminator (hbefore.not_terminator i hi)
  · rw [mem_singleton.mp hi, ← hbefore.eq_of_handlers]
    exact hlast.balanced

end Discipline

/-- Every block has one list of handlers at its start, which all ways into it bring. Regions are
closed in the order opposite to that they were opened in, and all are closed on return. -/
theorem protected_regions_balance {p : Program} {options : CompileOptions} {f : FunctionDecl}
    {strings pool : Array String} {body : Body}
    (hcode : lowerFunction p options f strings = .ok (body, pool)) :
    ∃ starts : List (List BlockId), starts.length = body.blocks.length ∧ starts[0]? = some [] ∧
      ∀ (k : Nat) (b : Block) (opened : List BlockId), body.blocks[k]? = some b →
        starts[k]? = some opened → ∀ i ∈ b.instructions, i.Balanced starts opened := by
  obtain ⟨t, hfrom, rfl⟩ := lowerFunction_ok hcode
  have hrenames : Discipline.handlers.Renames t.draft.number (List.map t.draft.number) :=
    ⟨fun _ => rfl, fun _ _ => rfl, fun x hx => by rw [show x = [] from hx]; rfl⟩
  obtain ⟨starts, hlength, hstart, hchecks⟩ := hfrom.admits (D := .handlers) (x := [])
    (Site.feeds_any _) rfl (.inl fun _ => rfl) hrenames
  exact ⟨starts, hlength, hstart, fun k b opened hb ho => (hchecks k b opened hb ho).balanced⟩

/-- `try { try { if (true) return 1 } finally { 2 } } finally { 3 }; 4` -/
def Expr.leaving : Expr :=
  let literal (n : Int64) : Expr := .ofLiteral (.i64 n)
  .mkBlock [
    .expr (.mkAttempt
      (.mkAttempt (.mkWhen (.ofLiteral (.boolean true)) (.mkRet (some (literal 1)))) []
        (some (literal 2))) [] (some (literal 3))),
    .expr (literal 4)]

theorem protected_regions_balance_leaving :
    ∃ body pool, lowerFunction .empty .standard (.cleaning .leaving) #[] = .ok (body, pool) ∧
      ∃ starts : List (List BlockId), starts.length = body.blocks.length ∧ starts[0]? = some [] ∧
        ∀ (k : Nat) (b : Block) (opened : List BlockId), body.blocks[k]? = some b →
          starts[k]? = some opened → ∀ i ∈ b.instructions, i.Balanced starts opened := by
  have hsome : (lowerFunction .empty .standard (.cleaning .leaving) #[]).toOption.isSome = true := by
    decide +kernel
  obtain ⟨⟨body, pool⟩, hcode⟩ := Option.isSome_iff_exists.mp hsome
  have hcode := Checked.eq_ok_of_toOption hcode
  exact ⟨body, pool, hcode, protected_regions_balance hcode⟩

end StackBackend
