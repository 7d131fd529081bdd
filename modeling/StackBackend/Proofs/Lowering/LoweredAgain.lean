import StackBackend.Proofs.Lowering.Repeated
import StackBackend.Proofs.Lowering.Verified

/-! A program that has its code already is lowered to the same code, function by function, since
the pool at the end has the strings of all of them. -/

namespace StackBackend

open Checked Pass List

variable {q : Program} {fs : List FunctionDecl}

/-! ## Functions -/

section

variable {p : Program} {options : CompileOptions} (h : q.source = p.source)
include h

theorem source_assignSlots (slotOf : Nat → Int) (ds : List DefnId) : ∀ position,
    assignSlots q slotOf position ds = assignSlots p slotOf position ds := by
  induction ds with
  | nil => intro position; rfl
  | cons d rest ih =>
    intro position
    simp only [assignSlots, Program.source_defnAt h, ih]

theorem lowerFunction_again {f : FunctionDecl} {strings strings' : Array String} {body : Body}
    (hbody : lowerFunction p options f strings = .ok (body, strings')) (lowered : Option Body) :
    strings.toList <+: strings'.toList ∧ (strings.toList.Nodup → strings'.toList.Nodup) ∧
    ∀ {later : Array String}, later.toList.Nodup → strings'.toList <+: later.toList →
      lowerFunction q options { f with lowered } later = .ok (body, later) := by
  unfold lowerFunction at hbody
  obtain ⟨params, hparams, hbody⟩ := bind_eq_ok.mp hbody
  dsimp only at hbody
  split at hbody
  · cases hbody
  rename_i hfew
  obtain ⟨locals, hlocals, hbody⟩ := bind_eq_ok.mp hbody
  obtain ⟨⟨_, t⟩, hentry, hbody⟩ := bind_eq_ok.mp hbody
  dsimp only at hbody
  cases hfinish : t.draft.finish f.name with
  | error e => rw [hfinish] at hbody; cases hbody
  | ok blocks =>
    rw [hfinish] at hbody
    cases hbody
    have hrepeats := @Repeats.lowerEntry ⟨p, f, params ++ locals⟩ q h lowered
    refine ⟨hrepeats.pool hentry, hrepeats.nodup hentry, fun {later} hnodup hlater => ?_⟩
    have hagain := hrepeats.again hentry hnodup hlater
    unfold lowerFunction
    refine bind_eq_ok.mpr ⟨params, (source_assignSlots h ..).trans hparams, ?_⟩
    dsimp only
    split <;> rename_i hmany
    · exact absurd hmany hfew
    refine bind_eq_ok.mpr ⟨locals, (source_assignSlots h ..).trans hlocals, ?_⟩
    refine bind_eq_ok.mpr ⟨_, hagain, ?_⟩
    dsimp only
    rw [hfinish]
    rfl

theorem lowerFunctions_again : ∀ {gs : List FunctionDecl}
    {strings pool : Array String} {bodies : List (FunctionId × Body)},
      gs.map FunctionDecl.source = fs.map FunctionDecl.source →
      lowerFunctions p options fs strings = .ok (bodies, pool) →
      strings.toList <+: pool.toList ∧ (strings.toList.Nodup → pool.toList.Nodup) ∧
      ∀ {later : Array String}, later.toList.Nodup → pool.toList <+: later.toList →
        lowerFunctions q options gs later = .ok (bodies, later) := by
  induction fs with
  | nil =>
    intro gs strings pool bodies hgs hbodies
    cases map_eq_nil_iff.mp hgs
    cases hbodies
    exact ⟨prefix_rfl, id, fun _ _ => rfl⟩
  | cons f rest ih =>
    intro gs strings pool bodies hgs hbodies
    obtain ⟨g, rest', rfl, hfg, hrest⟩ := map_eq_cons_iff.mp hgs
    obtain ⟨⟨body, middle⟩, hbody, hbodies⟩ := bind_eq_ok.mp hbodies
    obtain ⟨⟨others, last⟩, hothers, hbodies⟩ := bind_eq_ok.mp hbodies
    cases hbodies
    obtain ⟨hpool, hnodup, hagain⟩ := lowerFunction_again h hbody g.lowered
    obtain ⟨hpool', hnodup', hagain'⟩ := ih hrest hothers
    refine ⟨hpool.trans hpool', fun hs => hnodup' (hnodup hs), fun {later} hlater hstart => ?_⟩
    rw [FunctionDecl.source_eq hfg]
    exact bind_eq_ok.mpr ⟨_, hagain hlater (hpool'.trans hstart),
      bind_eq_ok.mpr ⟨_, hagain' hlater hstart, rfl⟩⟩

end

/-! ## Programs -/

section

variable {p : Program} {options : CompileOptions} {bodies : List (FunctionId × Body)} {v : Unit}

theorem lowerFunctions_ids : ∀ {strings pool : Array String}
    {bodies : List (FunctionId × Body)}, lowerFunctions p options fs strings = .ok (bodies, pool) →
      bodies.map Prod.fst = fs.map FunctionDecl.id := by
  induction fs with
  | nil => intro strings pool bodies h; cases h; rfl
  | cons f rest ih =>
    intro strings pool bodies h
    obtain ⟨⟨body, middle⟩, _, h⟩ := bind_eq_ok.mp h
    obtain ⟨⟨others, last⟩, hothers, h⟩ := bind_eq_ok.mp h
    cases h
    exact congrArg (f.id :: ·) (ih hothers)

/-- The code that is stored is the code that functions have. -/
def Program.Stores (p : Program) (bodies : List (FunctionId × Body)) : Prop :=
  ∀ entry ∈ bodies, ∃ decl, p.functions[entry.1.index]? = some decl ∧ decl.lowered = some entry.2

theorem storeBodies_source (h : (Pass.storeBodies bodies).Gives p v q) :
    q.source = p.source ∧ q.strings = p.strings := by
  induction bodies generalizing p with
  | nil =>
    obtain ⟨_, rfl⟩ := gives_pure.mp h
    exact ⟨rfl, rfl⟩
  | cons entry rest ih =>
    obtain ⟨_, r, h1, h2⟩ := gives_bind.mp h
    obtain ⟨_, rfl⟩ := gives_modifyFunction.mp h1
    obtain ⟨hsource, hstrings⟩ := ih h2
    refine ⟨hsource.trans ?_, hstrings⟩
    have hmap : (p.functions.modify entry.1.index ({ · with lowered := some entry.2 })).map
        FunctionDecl.source = p.functions.map FunctionDecl.source := by
      refine Array.ext_getElem? fun i => ?_
      rw [Array.getElem?_map, Array.getElem?_modify, Array.getElem?_map]
      split
      · rw [Option.map_map]
        rfl
      · rfl
    rw [Program.source, hmap]
    rfl

theorem storeBodies_other {f : FunctionId} (hf : f ∉ bodies.map Prod.fst)
    (h : (Pass.storeBodies bodies).Gives p v q) : q.functions[f.index]? = p.functions[f.index]? := by
  induction bodies generalizing p with
  | nil =>
    obtain ⟨_, rfl⟩ := gives_pure.mp h
    rfl
  | cons entry rest ih =>
    obtain ⟨_, r, h1, h2⟩ := gives_bind.mp h
    obtain ⟨_, rfl⟩ := gives_modifyFunction.mp h1
    obtain ⟨hne, hrest⟩ := not_or.mp (mt mem_cons.mpr hf)
    rw [ih hrest h2]
    dsimp only
    rw [Array.getElem?_modify, if_neg fun heq => hne (Ref.ext_index heq.symm)]

theorem storeBodies_stores (hnodup : (bodies.map Prod.fst).Nodup)
    (h : (Pass.storeBodies bodies).Gives p v q) : q.Stores bodies := by
  induction bodies generalizing p with
  | nil => exact forall_mem_nil _
  | cons entry rest ih =>
    obtain ⟨hnew, hnodup⟩ := nodup_cons.mp hnodup
    obtain ⟨_, r, h1, h2⟩ := gives_bind.mp h
    obtain ⟨hlt, rfl⟩ := gives_modifyFunction.mp h1
    refine forall_mem_cons.mpr ⟨?_, ih hnodup h2⟩
    refine ⟨{ p.functions[entry.1.index] with lowered := some entry.2 }, ?_, rfl⟩
    rw [storeBodies_other hnew h2]
    dsimp only
    rw [Array.getElem?_modify, if_pos rfl, Array.getElem?_eq_getElem hlt]
    rfl

theorem storeBodies_idle (h : p.Stores bodies) : (Pass.storeBodies bodies).Gives p () p := by
  induction bodies with
  | nil => exact gives_pure.mpr ⟨rfl, rfl⟩
  | cons entry rest ih =>
    obtain ⟨hentry, hrest⟩ := forall_mem_cons.mp h
    obtain ⟨decl, hdecl, hlowered⟩ := hentry
    have hsame : p.functions.modify entry.1.index ({ · with lowered := some entry.2 }) =
        p.functions := by
      refine Array.ext_getElem? fun i => ?_
      rw [Array.getElem?_modify]
      split <;> rename_i hi
      · rw [← hi, hdecl, ← hlowered]
        rfl
      · rfl
    refine gives_bind.mpr ⟨(), p, gives_modifyFunction.mpr
      ⟨Program.lt_of_get hdecl, ?_⟩, ih hrest⟩
    rw [hsame]

theorem requireLayouts_source (hlayouts : Pass.requireLayouts.Gives p v p)
    (hsource : q.source = p.source) : Pass.requireLayouts.Gives q v q := by
  simp only [Pass.requireLayouts, gives_bind, gives_get] at hlayouts ⊢
  obtain ⟨_, _, ⟨rfl, rfl⟩, hlayouts⟩ := hlayouts
  refine ⟨q, q, ⟨rfl, rfl⟩, ?_⟩
  rw [Program.source_classes hsource]
  split at hlayouts
  · exact (not_gives_stop hlayouts).elim
  · exact gives_pure.mpr ⟨rfl, rfl⟩

theorem source_lowerable (hsource : q.source = p.source) :
    (q.functions.toList.filter FunctionDecl.isLowerable).map FunctionDecl.source =
      (p.functions.toList.filter FunctionDecl.isLowerable).map FunctionDecl.source := by
  have hmap : q.functions.map FunctionDecl.source = p.functions.map FunctionDecl.source :=
    congrArg Program.functions hsource
  have hlists := congrArg Array.toList hmap
  rw [Array.toList_map, Array.toList_map] at hlists
  have hfilter := congrArg (List.filter FunctionDecl.isLowerable) hlists
  rw [filter_map, filter_map] at hfilter
  exact hfilter

theorem nodup_ids {fs : Array FunctionDecl}
    (hids : ∀ {i : Nat} {f : FunctionDecl}, fs[i]? = some f → f.id = ⟨i⟩) :
    (fs.toList.map FunctionDecl.id).Nodup := by
  have heq : fs.toList.map FunctionDecl.id =
      (List.range fs.size).map fun i => (⟨i⟩ : FunctionId) := by
    refine List.ext_getElem? fun i => ?_
    rw [List.getElem?_map, List.getElem?_map, Array.getElem?_toList]
    by_cases hi : i < fs.size
    · rw [Array.getElem?_eq_getElem hi, List.getElem?_range hi]
      exact congrArg some (hids (Array.getElem?_eq_getElem hi))
    · rw [Array.getElem?_eq_none (by omega), List.getElem?_eq_none (by simpa using hi)]
      rfl
  rw [heq]
  exact pairwise_map.mpr (nodup_range.imp fun hne heq => hne (congrArg Ref.index heq))

theorem generateCode_source (h : (Pass.generateCode options).Gives p () q) :
    q.source = p.source := by
  simp only [Pass.generateCode, gives_bind, gives_get, gives_set, gives_lift,
    gives_modify] at h
  obtain ⟨_, _, hlayouts, _, _, ⟨rfl, rfl⟩, _, _, rfl, _, _, ⟨_, rfl⟩, _, _, hstore, rfl⟩ := h
  cases requireLayouts_eq hlayouts
  exact (storeBodies_source hstore).1

theorem generateCode_again
    (hids : ∀ {i : Nat} {f : FunctionDecl}, p.functions[i]? = some f → f.id = ⟨i⟩)
    (hstrings : p.strings.toList.Nodup) (h : (Pass.generateCode options).Gives p () q) :
    (Pass.generateCode options).Gives q () q := by
  have hsource := generateCode_source h
  simp only [Pass.generateCode, gives_bind, gives_get, gives_set, gives_lift,
    gives_modify] at h ⊢
  obtain ⟨_, _, hlayouts, _, _, ⟨rfl, rfl⟩, _, _, rfl, ⟨bodies, pool⟩, _, ⟨hbodies, rfl⟩, _, r,
    hstore, rfl⟩ := h
  cases requireLayouts_eq hlayouts
  obtain ⟨_, hnodup, hagain⟩ := lowerFunctions_again hsource (source_lowerable hsource) hbodies
  have hids' : (bodies.map Prod.fst).Nodup := by
    rw [lowerFunctions_ids hbodies]
    exact (filter_sublist.map _).nodup (nodup_ids hids)
  have hstores := storeBodies_stores hids' hstore
  refine ⟨(), _, requireLayouts_source hlayouts hsource, _, _, ⟨rfl, rfl⟩, (), _, rfl,
    (bodies, pool), _, ⟨hagain (hnodup hstrings) prefix_rfl, rfl⟩, (), _,
    storeBodies_idle (p := { r with strings := #[] }) hstores, rfl⟩

end

end StackBackend
