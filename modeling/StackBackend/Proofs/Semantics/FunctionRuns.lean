import StackBackend.Proofs.Layout.FieldTables
import StackBackend.Proofs.Semantics.Preservation

/-! Whole functions on the machine. The blocks of a lowered function, run from the
first one, do what its body means. -/

namespace StackBackend

open List

variable {R : Runtime} {d : DefnId} {place : Nat × Storage} {e : Expr} {pool : List String}
  {rounds : Nat} {o : Except Exit Value}

variable {p : Program} {f : FunctionDecl} {strings : Array String} {body : Body} {t : LowerState}

/-! ## Fields -/

namespace Program

/-- A class that is no interface and has none, not even through its superclasses. -/
structure IsPlain (p : Program) (c : ClassId) : Prop where
  noInterface : ∀ b cls, p.classAt b = .ok cls → c ∉ cls.interfaces
  hasNone : ∀ b cls, p.Above c b → p.classAt b = .ok cls → cls.interfaces = []

/-- A field of a receiver whose type is such a class. -/
structure IsPlainField (p : Program) (receiver : Ty) (d : DefnId) : Prop where
  plain : ∀ c, receiver.class? = some c → p.IsPlain c
  mem : ∀ c, receiver.class? = some c → ∃ layout, p.layoutOf c = some layout ∧
    ∃ s ∈ layout.fields, s.defn = d

/-- If the node is a field, it is one of those. -/
def PlainAt (p : Program) (n : Node) : Prop := ∀ a ∈ n.field?, p.IsPlainField a.1 a.2

end Program

theorem Runtime.fieldSlot?_of_isPrefix {c b : ClassId}
    {layout layout' : ClassLayout} (hc : R.layout? c = some layout)
    (hb : R.layout? b = some layout') (hpre : layout'.fields <+: layout.fields)
    (h : R.fieldSlot? b d = some place) : R.fieldSlot? c d = some place := by
  obtain ⟨rest, hrest⟩ := hpre
  simp only [fieldSlot?, hb, ClassLayout.fieldIndex?, ClassLayout.field?, Option.bind_eq_bind,
    Option.bind_some, Option.bind_eq_some_iff] at h
  obtain ⟨index, hindex, slot, hslot, hplace⟩ := h
  simp [fieldSlot?, hc, ClassLayout.fieldIndex?, ClassLayout.field?, ← hrest,
    List.findIdx?_append, List.find?_append, hindex, hslot, Option.some.inj hplace]

theorem Runtime.layout?_of_fieldSlot? {c : ClassId} (h : R.fieldSlot? c d = some place) :
    ∃ layout, R.layout? c = some layout := by
  obtain ⟨layout, hlayout, _⟩ := Option.bind_eq_some_iff.mp h
  exact ⟨layout, hlayout⟩

theorem Runtime.isSubclass_of_isBelow? {sub sup : ClassId} {b : Bool}
    (h : R.isBelow? sub sup = some b) : R.program.isSubclass sub sup = .ok b := by
  unfold isBelow? at h
  cases hsub : R.program.isSubclass sub sup with
  | error e => rw [hsub] at h; cases h
  | ok b' => rw [hsub] at h; cases h; rfl

theorem Program.Flattened.uniform (h : p.Flattened) (hfields : p.FieldsOwned)
    (hR : R.program = p) {receiver : Ty} (hplain : p.IsPlainField receiver d) :
    R.Uniform receiver d := by
  subst hR
  intro c sub defn owner place place' hc hsub hplace hdefn howner hplace'
  have hc' := hplain.plain c hc
  obtain ⟨layout, hlayout, s, hs, rfl⟩ := hplain.mem c hc
  -- The class that declares the field is above the class of the receiver.
  obtain ⟨b, cls, hb, hcls, field, hfield, hd⟩ := h.exists_declaring hlayout hc'.hasNone hs
  obtain ⟨defn', hdefn', hkind⟩ := hfields hcls field hfield
  rw [hd] at hdefn'
  obtain rfl : defn = defn' := Option.some.inj (hdefn.symm.trans (entryAt_eq_ok.mp hdefn'))
  obtain rfl : owner = b := by
    rw [howner] at hkind
    exact DefnKind.field.inj hkind
  have habove : R.program.Above sub owner := by
    obtain ⟨a, ha, rfl | ⟨cls, hcls, hmem⟩⟩ := Program.supplies_of_isSubclassWithin _
      (Runtime.isSubclass_of_isBelow? hsub)
    · exact ha.trans hb
    · exact (hc'.noInterface a cls hcls hmem).elim
  obtain ⟨layout1, hlayout1⟩ := Runtime.layout?_of_fieldSlot? hplace
  obtain ⟨layout2, hlayout2⟩ := Runtime.layout?_of_fieldSlot? hplace'
  have hplace'' := Runtime.fieldSlot?_of_isPrefix hlayout1 hlayout2
    (h.isPrefix_fields habove hlayout1 hlayout2) hplace'
  exact Option.some.inj (hplace.symm.trans hplace'')

theorem Program.FlattensTo.uniformAt {p0 : Program} (h : p0.FlattensTo p)
    (hR : R.program = p) (he : e.All p.PlainAt) : e.All R.UniformAt := by
  obtain ⟨hagree, hflat⟩ := flattened_of_flattenClasses h.gives h.numbered
  exact he.mono fun n hn a ha =>
    hflat.uniform (hagree.fieldsOwned h.fieldsOwned) hR (hn a ha)

/-! ## Images -/

namespace SlotsOf

variable {params locals : List LocalSlot} (h : SlotsOf p f params locals)
include h

theorem nodup_slots : ((params ++ locals).map LocalSlot.slot).Nodup := by
  rw [map_append, (assignSlots_ok h.params).2, (assignSlots_ok h.locals).2]
  refine nodup_append.mpr ⟨?_, ?_, ?_⟩
  · exact .map (fun a b hab => by unfold paramSlot at hab; omega) (nodup_range' ..)
  · exact .map (fun a b hab => by unfold localSlot at hab; omega) (nodup_range' ..)
  · intro a ha b hb
    obtain ⟨m, _, rfl⟩ := mem_map.mp ha
    obtain ⟨n, _, rfl⟩ := mem_map.mp hb
    unfold paramSlot localSlot
    omega

theorem distinct {d' : DefnId} {i : Int} (hd : Site.slotOf? (params ++ locals) d = some i)
    (hd' : Site.slotOf? (params ++ locals) d' = some i) : d = d' := by
  obtain ⟨l, hl, hi⟩ := Option.map_eq_some_iff.mp hd
  obtain ⟨l', hl', hi'⟩ := Option.map_eq_some_iff.mp hd'
  obtain rfl : l = l' := List.inj_on_of_nodup_map h.nodup_slots
    (mem_reverse.mp (mem_of_find?_eq_some hl))
    (mem_reverse.mp (mem_of_find?_eq_some hl')) (hi.trans hi'.symm)
  have hld : l.defn = d := by simpa using List.find?_some hl
  have hld' : l.defn = d' := by simpa using List.find?_some hl'
  exact hld.symm.trans hld'

end SlotsOf

def Body.machine (body : Body) (R : Runtime) (pool : List String) : Machine :=
  { R with code := fun b => (body.blocks[b.index]?.map Block.instructions).getD [], pool }

namespace LoweredFrom

variable (h : LoweredFrom p f strings body t)
include h

theorem installed (hpool : t.strings.toList <+: pool) :
    Image.Installed ⟨body.machine R pool, t.draft.number, body.params ++ body.locals⟩ t where
  pool := hpool
  code P i hi := by
    have hstarted : t.draft.isStarted P.1 = true := by
      by_contra hn
      have hcode := h.finished.wf.code_of_not_started P.1 (by simpa using hn)
      unfold LowerState.Laid at hi
      rw [hcode] at hi
      cases hi
    obtain ⟨k, hk, hnumber, _⟩ := Draft.exists_number h.finished.wf hstarted
    have hblock : (body.machine R pool).code (t.draft.number P.1) =
        (t.draft.code P.1).map (Inst.mapTargets t.draft.number) := by
      unfold Body.machine
      dsimp only
      rw [hnumber, h.blocks, Draft.getElem?_blocks, hk]
      rfl
    dsimp only
    rw [hblock, List.getElem?_map, hi]
    rfl

end LoweredFrom

/-! ## Calls -/

def Config.entry (m : Memory) : Config := .running ⟨⟨0⟩, 0, [], [], m⟩

def Config.ended (o : Except Exit Value) (m : Memory) : Config :=
  match o with
  | .ok v | .error (.returned v) => .returned v m
  | .error (.thrown x) => .threw x m

theorem Runtime.call_cases {returnTy : Ty}
    {σ σ' : Source} (h : R.call returnTy rounds e σ = some (o, σ')) :
    ∃ x, (do
        let v ← R.eval returnTy rounds e
        let w ← R.coerce e.ty returnTy v
        Meaning.exit (.returned w) : Meaning Value) σ = some (.error x, σ') ∧
      ∀ m, Config.ended (.error x) m = .ended o m := by
  rw [← bind_assoc]
  rcases Meaning.bind_eq_some.mp h with ⟨a, σ1, h1, h2⟩ | ⟨x, σ1, h1, _⟩
  · obtain ⟨o', h1, ha⟩ := Meaning.observe_eq_some.mp h1
    cases ha
    rcases a with (v | x) | v <;> cases h2
    · exact ⟨_, Meaning.bind_eq_some.mpr (.inr ⟨_, _, h1, rfl⟩), fun _ => rfl⟩
    · exact ⟨_, Meaning.bind_eq_some.mpr (.inr ⟨_, _, h1, rfl⟩), fun _ => rfl⟩
    · exact ⟨_, Meaning.bind_eq_some.mpr (.inl ⟨v, _, h1, rfl⟩), fun _ => rfl⟩
  · obtain ⟨_, _, hx⟩ := Meaning.observe_eq_some.mp h1
    cases hx

theorem Image.Leaving.step_eq {I : Image} {v : Value} {base : List Value} {r : Running}
    (h : I.Leaving [] v base r) (hhandlers : r.handlers = []) :
    I.machine.step r = some (.returned v r.memory) := by
  obtain ⟨u, w, P, above, hgives, hwf, hw, hP, hat, hstack⟩ := h
  obtain ⟨_, _, hlaid⟩ := LowerState.Forward.of_terminate
    (show (Lower.terminate .ret).Gives u () w from hgives) hwf (by simp [Inst.successors])
  obtain ⟨hlaid, _⟩ := hlaid P hP
  rw [step_at hw hlaid hat]
  change I.machine.exec .ret r = _
  unfold Machine.exec
  rw [hstack, hhandlers]

/-- A lowered function does what its body means, however that ends. -/
theorem LoweredFrom.runs (h : LoweredFrom p f strings body t)
    (hkind : ∀ c, f.kind ≠ .constructor c) (hbody : f.body = some e)
    (hR : R.program = p) (he : e.All R.UniformAt)
    (hpool : t.strings.toList <+: pool) {σ σ' : Source}
    (hcall : R.call f.returnTy rounds e σ = some (o, σ')) {m : Memory}
    (hm : m.Shows (body.params ++ body.locals) σ) :
    ∃ m', (body.machine R pool).Reaches (.entry m) (.ended o m') ∧
      m'.Shows (body.params ++ body.locals) σ' := by
  let I : Image := ⟨body.machine R pool, t.draft.number, body.params ++ body.locals⟩
  let site : Site := ⟨p, f, body.params ++ body.locals⟩
  have hosts : I.Hosts site := ⟨hR, rfl, h.slots.distinct⟩
  have hentry : site.lowerEntry = (do
      site.lower e [] .value
      site.coerce e.ty f.returnTy
      Lower.terminate .ret) := by
    unfold Site.lowerEntry
    cases hk : f.kind <;> first | exact (hkind _ hk).elim | simp only [site, hbody]
  have hrealizes : I.Realizes [] [] site.lowerEntry (do
      let v ← R.eval f.returnTy rounds e
      let w ← R.coerce e.ty f.returnTy v
      Meaning.exit (.returned w) : Meaning Value) fun v => [v] := by
    have hnone : Tidy.Cleanups [] := nofun
    rw [hentry]
    exact .bind (.lower hosts rounds e [] .value hnone he) fun v =>
      .bind (.coerce e.ty f.returnTy v) fun w => .ret hnone w
  obtain ⟨x, hact, hended⟩ := Runtime.call_cases hcall
  have hinstalled := h.installed (R := R) hpool
  obtain ⟨c, hreach, hland⟩ := (hrealizes.runs h.entry Draft.wf_initial hinstalled rfl).run hact
    (r := ⟨⟨0⟩, 0, [], [], m⟩) ⟨(Draft.number_entry h.finished.wf).symm, rfl⟩ rfl hm nofun
  cases hland with
  | thrown _ agrees => exact ⟨_, by rw [← hended]; exact hreach, agrees⟩
  | returned leaving handlers_eq agrees =>
    refine ⟨_, ?_, agrees⟩
    rw [← hended]
    exact hreach.trans (.step (leaving.step_eq handlers_eq) (.refl _))

/-- The code of a function returns what its body comes to, and leaves its variables, the
globals and the heap as the body does. -/
theorem lowered_code_returns {p₀ : Program} (hp : p₀.FlattensTo p) {f : FunctionDecl}
    (hkind : ∀ c, f.kind ≠ .constructor c) {e : Expr} (hbody : f.body = some e)
    (he : e.All p.PlainAt) {options : CompileOptions} {strings pool : Array String} {body : Body}
    (hcode : lowerFunction p options f strings = .ok (body, pool)) {R : Runtime}
    (hR : R.program = p) {rounds : Nat} {σ σ' : Source} {v : Value}
    (hcall : R.call f.returnTy rounds e σ = some (.ok v, σ')) {m : Memory}
    (hm : m.Shows (body.params ++ body.locals) σ) {constants : List String}
    (hpool : pool.toList <+: constants) :
    ∃ m', (body.machine R constants).Reaches (.entry m) (.returned v m') ∧
      m'.Shows (body.params ++ body.locals) σ' := by
  obtain ⟨t, hfrom, rfl⟩ := lowerFunction_ok hcode
  exact hfrom.runs hkind hbody hR (hp.uniformAt hR he) hpool hcall hm

/-! A function that sums into an object:
`while (n > 0) { c.total += n; n -= 1 }; if (n == 0 || c.total > n) return c.total; n`. -/

def Expr.summing : Expr :=
  let total : Expr := .field .i64 (.variable (.ofClass ⟨0⟩) ⟨1⟩) ⟨0⟩
  let n : Expr := .variable .i64 ⟨2⟩
  .mkBlock [
    .expr (.mkLoop (.mkBinary .gt n (.ofLiteral (.i64 0))) (.mkBlock [
      .expr (.mkCompound .add total n),
      .expr (.mkCompound .sub n (.ofLiteral (.i64 1)))])),
    .expr (.mkWhen (.mkOr (.mkBinary .eq n (.ofLiteral (.i64 0))) (.mkBinary .gt total n))
      (.mkRet (some total))),
    .expr n]

def FunctionDecl.summing : FunctionDecl :=
  { id := ⟨0⟩, name := "sum", kind := .global, scope := ⟨0⟩, returnTy := .i64, typeParams := [],
    params := [⟨1⟩, ⟨2⟩], chain := none, isBuiltin := false, isFinal := false, lowered := none,
    body := some .summing }

def ClassDecl.counter (layout : Option ClassLayout) : ClassDecl :=
  { id := ⟨0⟩, name := "Counter", supertype := none, interfaces := [], typeParams := [],
    scope := ⟨0⟩, fields := [⟨⟨0⟩, none⟩], methods := [], constructors := [], initializer := none,
    origin := .declared, isFinal := false, layout }

def ClassLayout.counter : ClassLayout := ⟨[⟨⟨0⟩, .bits64⟩], []⟩

def Program.summing (layout : Option ClassLayout) : Program :=
  { Program.empty with
    scopes := #[⟨⟨0⟩, none, .global, .empty⟩]
    definitions := #[⟨⟨0⟩, "total", .field ⟨0⟩, .i64, true, ⟨0⟩⟩,
      ⟨⟨1⟩, "c", .parameter, .ofClass ⟨0⟩, false, ⟨0⟩⟩,
      ⟨⟨2⟩, "n", .parameter, .i64, true, ⟨0⟩⟩]
    classes := #[.counter layout]
    functions := #[.summing] }

def Body.summing : Body :=
  { params := [⟨⟨1⟩, "c", .ofClass ⟨0⟩, 0⟩, ⟨⟨2⟩, "n", .i64, 1⟩]
    locals := []
    blocks := [
      ⟨⟨0⟩, [.branch ⟨1⟩]⟩,
      ⟨⟨1⟩, [.loadLocal 1, .i64 0, .int .gt .i64, .branchIf ⟨2⟩ ⟨3⟩]⟩,
      ⟨⟨2⟩, [.loadLocal 0, .dup, .load64 0, .loadLocal 1, .int .add .i64, .swap, .store64 0,
        .loadLocal 1, .i64 1, .int .sub .i64, .storeLocal 1, .branch ⟨1⟩]⟩,
      ⟨⟨3⟩, [.loadLocal 1, .i64 0, .int .eq .i64, .dup, .branchIf ⟨5⟩ ⟨4⟩]⟩,
      ⟨⟨4⟩, [.drop, .loadLocal 0, .load64 0, .loadLocal 1, .int .gt .i64, .branch ⟨5⟩]⟩,
      ⟨⟨5⟩, [.branchIf ⟨6⟩ ⟨7⟩]⟩,
      ⟨⟨6⟩, [.loadLocal 0, .load64 0, .ret]⟩,
      ⟨⟨7⟩, [.loadLocal 1, .ret]⟩] }

def Host.integers : Host where
  binary op a b := match op, a, b with
    | .add, .i64 a, .i64 b => some (.i64 (a + b))
    | .sub, .i64 a, .i64 b => some (.i64 (a - b))
    | .gt, .i64 a, .i64 b => some (.boolean (b < a))
    | .eq, .i64 a, .i64 b => some (.boolean (a = b))
    | _, _, _ => none
  unary _ _ := none
  admits _ _ _ := true

def Runtime.summing : Runtime := ⟨.summing (some .counter), .integers, fun _ => .unit⟩

/-- The counter stands at 1 and `n` is 3. -/
def Source.summing : Source where
  vars d := if d = ⟨1⟩ then .object 0 else .i64 3
  world := ⟨fun _ => .unit, fun _ => some ⟨⟨0⟩, [.i64 1]⟩, []⟩

def Memory.summing : Memory where
  frame i := if i = 0 then .object 0 else .i64 3
  world := Source.summing.world
  typeObjects := []

theorem Program.flattensTo_summing :
    (Program.summing none).FlattensTo (.summing (some .counter)) where
  gives := rfl
  numbered i cls h := by
    obtain ⟨hi, h⟩ := Array.getElem?_eq_some_iff.mp h
    obtain rfl : i = 0 := Nat.lt_one_iff.mp hi
    cases h
    rfl
  fieldsOwned {c cls} h := by
    cases mem_singleton.mp (mem_of_entryAt h)
    obtain rfl : c = ⟨0⟩ := Ref.ext_index (Nat.lt_one_iff.mp (lt_size_of_entryAt h))
    intro f hf
    cases mem_singleton.mp hf
    exact ⟨_, rfl, rfl⟩

theorem Program.plainAt_summing : Expr.summing.All (Program.summing (some .counter)).PlainAt := by
  have hnone : ∀ b cls, (Program.summing (some .counter)).classAt b = .ok cls →
      cls.interfaces = [] := by
    intro b cls h
    cases mem_singleton.mp (mem_of_entryAt h)
    rfl
  have hplain : (Program.summing (some .counter)).IsPlainField (.ofClass ⟨0⟩) ⟨0⟩ := by
    refine ⟨fun c _ => ⟨fun b cls h => by simp [hnone b cls h], fun b cls _ h => hnone b cls h⟩,
      fun c h => ?_⟩
    cases h
    exact ⟨.counter, rfl, _, mem_singleton_self _, rfl⟩
  have hfields : ∀ n ∈ Expr.summing.nodes, ∀ a ∈ n.field?, a = (.ofClass ⟨0⟩, ⟨0⟩) := by
    simp [Expr.summing, Expr.nodes, nodesOfStmts, Stmt.nodes, Expr.mkBlock, Expr.mkLoop,
      Expr.mkBinary, Expr.mkCompound, Expr.mkWhen, Expr.mkOr, Expr.mkRet, Expr.ofLiteral,
      Node.field?, Expr.ty]
  intro n hn a ha
  rw [hfields n hn a ha]
  exact hplain

theorem lowerFunction_summing :
    lowerFunction (.summing (some .counter)) .standard .summing #[] = .ok (.summing, #[]) :=
  Checked.eq_ok_of_toOption (by decide +kernel)

theorem Runtime.call_summing :
    ∃ σ', Runtime.summing.call .i64 5 .summing .summing = some (.ok (.i64 7), σ') := by
  have hvalue : (Runtime.summing.call .i64 5 .summing .summing).map Prod.fst =
      some (.ok (.i64 7)) := rfl
  obtain ⟨⟨_, σ'⟩, hcall, rfl⟩ := Option.map_eq_some_iff.mp hvalue
  exact ⟨σ', hcall⟩

theorem Memory.Shows.of_slots {m : Memory} {slots : List LocalSlot} {σ : Source}
    (hworld : m.world = σ.world) (h : ∀ l ∈ slots, m.frame l.slot = σ.vars l.defn) :
    m.Shows slots σ := by
  refine ⟨hworld, fun d i hd => ?_⟩
  obtain ⟨l, hl, rfl⟩ := Option.map_eq_some_iff.mp hd
  obtain rfl : l.defn = d := by simpa using List.find?_some hl
  exact h l (mem_reverse.mp (mem_of_find?_eq_some hl))

theorem Memory.shows_summing :
    Memory.summing.Shows (Body.summing.params ++ Body.summing.locals) .summing := by
  refine .of_slots rfl (forall_mem_cons.mpr ⟨rfl, forall_mem_cons.mpr ⟨rfl, nofun⟩⟩)

theorem lowered_code_returns_summing : ∃ σ' m',
    lowerFunction (.summing (some .counter)) .standard .summing #[] = .ok (.summing, #[]) ∧
    Runtime.summing.call .i64 5 .summing .summing = some (.ok (.i64 7), σ') ∧
    (Body.summing.machine .summing []).Reaches (.entry .summing) (.returned (.i64 7) m') ∧
    m'.Shows (Body.summing.params ++ Body.summing.locals) σ' := by
  have hcode := lowerFunction_summing
  have hkind : ∀ c, FunctionDecl.summing.kind ≠ .constructor c := by
    intro c h
    cases h
  obtain ⟨σ', hcall⟩ := Runtime.call_summing
  obtain ⟨m', hreach, hshows'⟩ := lowered_code_returns Program.flattensTo_summing hkind rfl
    Program.plainAt_summing hcode rfl hcall Memory.shows_summing prefix_rfl
  exact ⟨σ', m', hcode, hcall, hreach, hshows'⟩

end StackBackend
