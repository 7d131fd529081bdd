import StackBackend.Proofs.Expr.Atoms
import StackBackend.Proofs.Program.Nesting
import StackBackend.Proofs.Program.Recoded

/-! Implicit receivers made explicit. Afterwards nothing uses the implicit receiver; the
functions that did use the receiver of the innermost member around them instead, and name
nothing else that they did not name before. -/

namespace StackBackend

open Checked
open List (mem_append not_mem_nil mem_flatMap mem_cons)

variable {b : Atom} {d : DefnId} {e : Expr} {es : List Expr} {uses : List String}

/-! ## Replacing nodes -/

theorem length_mapArgs (f : Expr → Expr) (args : List Expr) :
    (mapArgs (m := Id) f args).length = args.length := by
  induction args with
  | nil => rfl
  | cons arg rest ih => exact congrArg Nat.succ ih

namespace Expr

theorem mapNodes_plain (f : Expr → Expr) (he : e.isPlain = true) :
    e.mapNodes f = f (e.withParts (mapArgs (m := Id) f e.parts)) := by
  cases e with
  | block | attempt => cases he
  | cond ty test onTrue onFalse => cases onFalse <;> rfl
  | ret ty value => cases value <;> rfl
  | _ => rfl

end Expr

namespace Program

def isImplicit (p : Program) : Atom → Bool
  | .self | .invokeSelf _ => true
  | .variable d => p.isField d
  | _ => false

section

variable (p : Program) (receiver : DefnId)

/-- What an expression names once the receiver is explicit, given what it named before. -/
def Explicit (before : List Atom) (a : Atom) : Prop :=
  (a ∈ before ∧ p.isImplicit a = false) ∨
    (a = .variable receiver ∧ ∃ b ∈ before, p.isImplicit b = true)

variable {p receiver} {ty : Ty} {a : Atom} {xs ys : List Atom}

theorem explicit_nil : ¬ p.Explicit receiver [] a := by
  rintro (⟨ha, _⟩ | ⟨_, _, hb, _⟩)
  · cases ha
  · cases hb

theorem explicit_append :
    p.Explicit receiver (xs ++ ys) a ↔ p.Explicit receiver xs a ∨ p.Explicit receiver ys a := by
  unfold Explicit
  constructor
  · rintro (⟨ha, himp⟩ | ⟨ha, b, hb, himp⟩)
    · exact (mem_append.mp ha).imp (fun ha => .inl ⟨ha, himp⟩) fun ha => .inl ⟨ha, himp⟩
    · exact (mem_append.mp hb).imp (fun hb => .inr ⟨ha, b, hb, himp⟩)
        fun hb => .inr ⟨ha, b, hb, himp⟩
  · rintro ((⟨ha, himp⟩ | ⟨ha, b, hb, himp⟩) | (⟨ha, himp⟩ | ⟨ha, b, hb, himp⟩))
    · exact .inl ⟨List.mem_append_left _ ha, himp⟩
    · exact .inr ⟨ha, b, List.mem_append_left _ hb, himp⟩
    · exact .inl ⟨List.mem_append_right _ ha, himp⟩
    · exact .inr ⟨ha, b, List.mem_append_right _ hb, himp⟩

theorem explicit_single : p.Explicit receiver [b] a ↔
    if p.isImplicit b then a = .variable receiver else a = b := by
  have himp : a ∈ [b] ∧ p.isImplicit a = false ↔ a = b ∧ p.isImplicit b = false := by
    rw [List.mem_singleton]
    exact and_congr_right fun h => by rw [h]
  rw [Explicit, himp]
  cases hb : p.isImplicit b <;> simp [hb]

theorem explicit_cons (hb : p.isImplicit b = false) :
    p.Explicit receiver (b :: xs) a ↔ a = b ∨ p.Explicit receiver xs a := by
  rw [show b :: xs = [b] ++ xs from rfl, explicit_append, explicit_single, hb]
  rfl

theorem atoms_explicitNode (he : e.isPlain = true) :
    a ∈ (p.explicitNode (.variable ty receiver) e).atoms ↔
      p.Explicit receiver e.ownAtoms a ∨ a ∈ atomsOfArgs e.parts := by
  have hother : ∀ {e' : Expr}, e'.isPlain = true → e'.ownAtoms = [] →
      (a ∈ e'.atoms ↔ p.Explicit receiver e'.ownAtoms a ∨ a ∈ atomsOfArgs e'.parts) := by
    intro e' he' hown
    rw [Expr.atoms_plain he', hown, List.nil_append, or_iff_right explicit_nil]
  cases e with
  | block | attempt => cases he
  | self ty' =>
    simp [explicitNode, Expr.ownAtoms, explicit_single, isImplicit, Expr.parts, Expr.withTy]
  | «variable» ty' d =>
    by_cases hd : p.isField d = true <;>
      simp [explicitNode, hd, Expr.ownAtoms, explicit_single, isImplicit, Expr.parts]
  | invokeSelf ty' f typeArgs args =>
    have hatoms : (p.explicitNode (.variable ty receiver) (.invokeSelf ty' f typeArgs args)).atoms =
        .variable receiver :: atomsOfArgs args :=
      Expr.atoms_plain (e := .invoke ty' (.variable ty receiver) f typeArgs args) rfl
    rw [hatoms]
    simp [Expr.ownAtoms, explicit_single, isImplicit, Expr.parts]
  | call ty' f typeArgs args =>
    have hatoms : (p.explicitNode (.variable ty receiver) (.call ty' f typeArgs args)).atoms =
        .call f :: atomsOfArgs args :=
      Expr.atoms_plain (e := .call ty' f typeArgs args) rfl
    rw [hatoms]
    simp [Expr.ownAtoms, explicit_single, isImplicit, Expr.parts]
  | functionValue ty' f =>
    have hatoms : (p.explicitNode (.variable ty receiver) (.functionValue ty' f)).atoms =
        [.value f] := rfl
    rw [hatoms]
    simp [Expr.ownAtoms, explicit_single, isImplicit, Expr.parts]
  | _ => exact hother he rfl

section

variable {node : Expr → Id Expr}

theorem explicit_induction (hkeep : ∀ {e : Expr}, e.isPlain = false → node e = e)
    (hnode : ∀ {e a}, e.isPlain = true →
      (a ∈ Expr.atoms (node e) ↔ p.Explicit receiver e.ownAtoms a ∨ a ∈ atomsOfArgs e.parts)) :
    ExprInduction
      (fun e => ∀ a, a ∈ (e.mapNodes node).atoms ↔ p.Explicit receiver e.atoms a)
      (fun args => ∀ a, a ∈ atomsOfArgs (mapArgs node args) ↔
        p.Explicit receiver (atomsOfArgs args) a)
      (fun stmts => ∀ a, a ∈ atomsOfStmts (mapStmts node stmts) ↔
        p.Explicit receiver (atomsOfStmts stmts) a)
      (fun clauses => ∀ a, a ∈ atomsOfClauses (mapClauses node clauses) ↔
        p.Explicit receiver (atomsOfClauses clauses) a) where
  plain e he hparts a := by
    obtain ⟨hps, hown, hplain⟩ := Expr.withParts_eq (length_mapArgs node e.parts)
    rw [Expr.mapNodes_plain _ he, hnode (hplain.trans he), hps, hown,
      Expr.atoms_plain he, explicit_append, hparts]
  block ty stmts hstmts a := by
    have hatoms : ((Expr.block ty stmts).mapNodes node).atoms = atomsOfStmts (mapStmts node stmts) :=
      congrArg Expr.atoms (hkeep rfl)
    rw [hatoms]
    exact hstmts a
  attempt ty body clauses hbody hclauses a := by
    have hatoms : ((Expr.attempt ty body clauses none).mapNodes node).atoms =
        (body.mapNodes node).atoms ++ atomsOfClauses (mapClauses node clauses) :=
      (congrArg Expr.atoms (hkeep rfl)).trans Expr.atoms_attempt
    rw [hatoms, Expr.atoms_attempt, mem_append, explicit_append, hbody, hclauses]
  cleanup ty body clauses last hbody hclauses hlast a := by
    have hatoms : ((Expr.attempt ty body clauses (some last)).mapNodes node).atoms =
        (body.mapNodes node).atoms ++ (atomsOfClauses (mapClauses node clauses) ++
          (last.mapNodes node).atoms) := (congrArg Expr.atoms (hkeep rfl)).trans Expr.atoms_cleanup
    rw [hatoms, Expr.atoms_cleanup, mem_append, mem_append, explicit_append, explicit_append,
      hbody, hclauses, hlast]
  noArgs a := iff_of_false not_mem_nil explicit_nil
  arg e rest he hrest a := by
    have hatoms : atomsOfArgs (mapArgs node (e :: rest)) =
        (e.mapNodes node).atoms ++ atomsOfArgs (mapArgs node rest) := atomsOfArgs_cons
    rw [hatoms, atomsOfArgs_cons, mem_append, explicit_append, he, hrest]
  noStmts a := iff_of_false not_mem_nil explicit_nil
  expr e rest he hrest a := by
    have hatoms : atomsOfStmts (mapStmts node (.expr e :: rest)) =
        (e.mapNodes node).atoms ++ atomsOfStmts (mapStmts node rest) := atomsOfStmts_expr
    rw [hatoms, atomsOfStmts_expr, mem_append, explicit_append, he, hrest]
  declare d rest hrest a := by
    have hatoms : atomsOfStmts (mapStmts node (.declare d none :: rest)) =
        .declare d :: atomsOfStmts (mapStmts node rest) := rfl
    rw [hatoms, atomsOfStmts_declare, mem_cons, explicit_cons rfl, hrest]
  define d init rest hinit hrest a := by
    have hatoms : atomsOfStmts (mapStmts node (.declare d (some init) :: rest)) =
        .declare d :: ((init.mapNodes node).atoms ++ atomsOfStmts (mapStmts node rest)) :=
      atomsOfStmts_define
    rw [hatoms, atomsOfStmts_define, mem_cons, mem_append, explicit_cons rfl, explicit_append,
      hinit, hrest]
  function f rest hrest a := by
    have hatoms : atomsOfStmts (mapStmts node (.function f :: rest)) =
        .function f :: atomsOfStmts (mapStmts node rest) := rfl
    rw [hatoms, atomsOfStmts_function, mem_cons, explicit_cons rfl, hrest]
  noClauses a := iff_of_false not_mem_nil explicit_nil
  clause binding guard body rest hbody hrest a := by
    have hatoms : atomsOfClauses (mapClauses node (.mk binding guard body :: rest)) =
        binding.toList.map Atom.catches ++ ((body.mapNodes node).atoms ++
          atomsOfClauses (mapClauses node rest)) := atomsOfClauses_cons
    have hbinding : p.Explicit receiver (binding.toList.map Atom.catches) a ↔
        a ∈ binding.toList.map Atom.catches := by
      cases binding with
      | none => exact iff_of_false explicit_nil not_mem_nil
      | some d => exact explicit_single.trans List.mem_singleton.symm
    rw [hatoms, atomsOfClauses_cons, mem_append, mem_append, explicit_append, explicit_append,
      hbinding, hbody, hrest]

end

theorem mem_explicitReceiver : a ∈ (p.explicitReceiver (.variable ty receiver) e).atoms ↔
    p.Explicit receiver e.atoms a := by
  refine (explicit_induction (fun {e} he => ?_) atoms_explicitNode).exprs e a
  cases e with
  | block | attempt => rfl
  | _ => cases he

end

/-! ## Uses of the implicit receiver -/

theorem nodesOfArgs_eq (es : List Expr) : nodesOfArgs es = es.flatMap Expr.nodes := by
  induction es with
  | nil => rfl
  | cons e rest ih => rw [nodesOfArgs, ih, List.flatMap_cons]

section

variable {p : Program} {n : Node}

theorem implicitUse?_eq_ok {o : Option String} (h : p.implicitUse? n = .ok o) :
    (∀ d, .variable d ∈ n.atoms → d.index < p.definitions.size) ∧
      (o = none ↔ ∀ a ∈ n.atoms, p.isImplicit a = false) := by
  cases n with
  | stmt s => cases s <;> cases h <;> simp [Node.atoms, isImplicit]
  | clause c => cases h; simp [Node.atoms, isImplicit]
  | expr e =>
    cases e with
    | «variable» ty d =>
      obtain ⟨defn, hdefn, h⟩ := bind_eq_ok.mp h
      have hlt := lt_size_of_entryAt hdefn
      cases h
      by_cases hd : p.isField d = true <;>
        simp [Node.atoms, Expr.ownAtoms, isImplicit, hd, hlt]
    | invokeSelf ty f typeArgs args =>
      obtain ⟨decl, _, h⟩ := bind_eq_ok.mp h
      cases h
      simp [Node.atoms, Expr.ownAtoms, isImplicit]
    | _ => cases h; simp [Node.atoms, Expr.ownAtoms, isImplicit]

theorem implicitUse?_answers (hv : ∀ d, .variable d ∈ n.atoms → d.index < p.definitions.size)
    (hf : ∀ f, .invokeSelf f ∈ n.atoms → f.index < p.functions.size) :
    (p.implicitUse? n).Answers := by
  cases n with
  | stmt s => exact ⟨none, rfl⟩
  | clause c => exact ⟨none, rfl⟩
  | expr e =>
    cases e with
    | self ty => exact ⟨some "this", rfl⟩
    | «variable» ty d =>
      obtain ⟨defn, hdefn⟩ := exists_of_lt (hv d (List.mem_singleton_self _))
      exact answers_bind (defnAt_eq hdefn) ⟨_, rfl⟩
    | invokeSelf ty f typeArgs args =>
      obtain ⟨decl, hdecl⟩ := exists_of_lt (hf f (List.mem_singleton_self _))
      exact answers_bind (functionAt_eq hdecl) ⟨_, rfl⟩
    | _ => exact ⟨none, rfl⟩

theorem implicitUses_eq_ok (h : p.implicitUses es = .ok uses) :
    (∀ d, .variable d ∈ atomsOfArgs es → d.index < p.definitions.size) ∧
      (uses = [] ↔ ∀ a ∈ atomsOfArgs es, p.isImplicit a = false) := by
  rw [implicitUses, ← nodesOfArgs_eq] at h
  have hanswers := filterMapM_answers.mp ⟨uses, h⟩
  constructor
  · intro d hd
    obtain ⟨n, hn, hd⟩ := mem_flatMap.mp hd
    obtain ⟨o, ho⟩ := hanswers n hn
    exact (implicitUse?_eq_ok ho).1 d hd
  · constructor
    · intro hnil a ha
      obtain ⟨n, hn, ha⟩ := mem_flatMap.mp ha
      obtain ⟨o, ho⟩ := hanswers n hn
      have hnone : o = none := by
        cases o with
        | none => rfl
        | some use =>
          have hmem := (mem_filterMapM h).mpr ⟨n, hn, ho⟩
          rw [hnil] at hmem
          exact absurd hmem not_mem_nil
      exact (implicitUse?_eq_ok ho).2.mp hnone a ha
    · intro hall
      refine List.eq_nil_iff_forall_not_mem.mpr fun use huse => ?_
      obtain ⟨n, hn, ho⟩ := (mem_filterMapM h).mp huse
      have hnone := (implicitUse?_eq_ok ho).2.mpr fun a ha =>
        hall a (mem_flatMap.mpr ⟨n, hn, ha⟩)
      cases hnone

theorem implicitUses_answers (hv : ∀ d, .variable d ∈ atomsOfArgs es → d.index < p.definitions.size)
    (hf : ∀ f, .invokeSelf f ∈ atomsOfArgs es → f.index < p.functions.size) :
    (p.implicitUses es).Answers := by
  rw [implicitUses, ← nodesOfArgs_eq]
  exact filterMapM_answers.mpr fun n hn => implicitUse?_answers
    (fun d hd => hv d (mem_flatMap.mpr ⟨n, hn, hd⟩))
    fun f hf' => hf f (mem_flatMap.mpr ⟨n, hn, hf'⟩)

end

end Program

/-! ## One function -/

def FunctionDecl.atoms (f : FunctionDecl) : List Atom := atomsOfArgs f.exprs

def FunctionDecl.withReceiver (p : Program) (receiver : Expr) (f : FunctionDecl) : FunctionDecl :=
  { f with
    body := f.body.map (p.explicitReceiver receiver)
    chain := f.chain.map (·.mapArgs (List.map (p.explicitReceiver receiver))) }

theorem FunctionDecl.exprs_withReceiver (p : Program) (receiver : Expr) (f : FunctionDecl) :
    (f.withReceiver p receiver).exprs = f.exprs.map (p.explicitReceiver receiver) := by
  obtain ⟨_, _, _, _, _, _, _, body, chain, _, _, _⟩ := f
  cases body <;> cases chain <;>
    simp only [exprs, withReceiver, Option.map_none, Option.map_some, Option.toList_none,
      Option.toList_some, Option.getD_none, Option.getD_some, List.map_append, List.map_nil,
      List.map_cons, List.nil_append, List.append_nil]
  all_goals
    rename_i c
    obtain ⟨call, _⟩ := c
    cases call <;> rfl

namespace Program

/-- A function after its receiver was made explicit. -/
inductive Resolves (p : Program) (f : FunctionId) (decl : FunctionDecl) : FunctionDecl → Prop where
  | same (h : ∀ a ∈ decl.atoms, p.isImplicit a = false) : Resolves p f decl decl
  | explicit {d : DefnId} {ty : Ty} (hd : p.receiverInScope f = .ok (some d))
    (hty : p.load d = .ok (.variable ty d)) (huses : ∃ a ∈ decl.atoms, p.isImplicit a = true) :
    Resolves p f decl (decl.withReceiver p (.variable ty d))

variable {p : Program} {f : FunctionId} {decl decl' : FunctionDecl}

/-- What code names once its receiver is explicit: what it named before, but for what was
implicit, and the receiver if anything was. -/
def NamedFrom (p : Program) (f : FunctionId) (before : List Atom) (a : Atom) : Prop :=
  (a ∈ before ∧ p.isImplicit a = false) ∨ ∃ d, p.receiverInScope f = .ok (some d) ∧
    a = .variable d ∧ ∃ b ∈ before, p.isImplicit b = true

theorem namedFrom_explicit {ty : Ty} (hd : p.receiverInScope f = .ok (some d)) {a : Atom}
    (ha : a ∈ atomsOfArgs (es.map (p.explicitReceiver (.variable ty d)))) :
    p.NamedFrom f (atomsOfArgs es) a := by
  obtain ⟨e', he', ha⟩ := mem_atomsOfArgs.mp ha
  obtain ⟨e, he, rfl⟩ := List.mem_map.mp he'
  rcases mem_explicitReceiver.mp ha with ⟨ha, himp⟩ | ⟨ha, b, hb, himp⟩
  · exact .inl ⟨mem_atomsOfArgs.mpr ⟨e, he, ha⟩, himp⟩
  · exact .inr ⟨d, hd, ha, b, mem_atomsOfArgs.mpr ⟨e, he, hb⟩, himp⟩

theorem Resolves.atoms (h : p.Resolves f decl decl') {a : Atom} (ha : a ∈ decl'.atoms) :
    p.NamedFrom f decl.atoms a := by
  cases h with
  | same hsame => exact .inl ⟨ha, hsame a ha⟩
  | explicit hd _ _ =>
    rw [FunctionDecl.atoms, FunctionDecl.exprs_withReceiver] at ha
    exact namedFrom_explicit hd ha

theorem Recoded.implicitUses {r : Program} (h : p.Recoded r) (hu : r.implicitUses es = .ok uses) :
    (∀ d, .variable d ∈ atomsOfArgs es → d.index < p.definitions.size) ∧
      (uses = [] ↔ ∀ a ∈ atomsOfArgs es, p.isImplicit a = false) := by
  have hspec := implicitUses_eq_ok hu
  have himp : r.isImplicit = p.isImplicit := by
    funext a
    cases a <;> first | rfl | exact h.isField
  rw [h.definitions, himp] at hspec
  exact hspec

theorem Recoded.explicitReceiver {r : Program} (h : p.Recoded r) :
    r.explicitReceiver = p.explicitReceiver := by
  have hnode : r.explicitNode = p.explicitNode := by
    funext receiver e
    cases e <;> simp only [explicitNode, h.isField]
  funext receiver e
  rw [Program.explicitReceiver, Program.explicitReceiver, hnode]

def VariablesKnown (p : Program) (decl : FunctionDecl) : Prop :=
  ∀ d, .variable d ∈ decl.atoms → d.index < p.definitions.size

end Program

namespace Pass

open Program

variable {p r r' : Program} {f : FunctionId} {decl : FunctionDecl}

theorem load_eq (h : p.load d = .ok e) : ∃ ty, e = .variable ty d := by
  obtain ⟨defn, _, h⟩ := bind_eq_ok.mp h
  cases h
  exact ⟨defn.ty, rfl⟩

/-- A step changes one function, in the way that the program it started from says. -/
theorem resolveReceiver_gives (hr : p.Recoded r) (hdecl : r.functions[f.index]? = some decl)
    (h : (resolveReceiver f).Gives r () r') : RecodesOne
      (fun f decl decl' => p.Resolves f decl decl' ∧ p.VariablesKnown decl) f decl r r' := by
  obtain ⟨o, hreceiver, h⟩ := gives_ask_bind.mp h
  obtain ⟨_, hfunction, h⟩ := gives_ask_bind.mp h
  cases (functionAt_eq hdecl).symm.trans hfunction
  obtain ⟨uses, huses, h⟩ := gives_ask_bind.mp h
  obtain ⟨hvars, hnil⟩ := hr.implicitUses huses
  rw [hr.receiverInScope] at hreceiver
  cases uses with
  | nil =>
    obtain ⟨_, rfl⟩ := gives_pure.mp h
    exact ⟨decl.body, decl.chain, ⟨.same (hnil.mp rfl), hvars⟩, by rw [modify_same hdecl]⟩
  | cons use rest =>
    cases o with
    | none => exact absurd h not_gives_stop
    | some d =>
      obtain ⟨load, hload, h⟩ := gives_ask_bind.mp h
      obtain ⟨ty, rfl⟩ := load_eq hload
      obtain ⟨_, rfl⟩ := gives_modifyFunction.mp (gives_get_bind.mp h)
      have hload' : p.load d = .ok (.variable ty d) := by
        rw [← hload, Program.load, Program.load, hr.defnAt]
      have himp : ∃ a ∈ decl.atoms, p.isImplicit a = true := by
        by_contra hno
        refine List.cons_ne_nil use rest (hnil.mpr fun a ha => ?_)
        rw [← Bool.not_eq_true]
        exact fun ht => hno ⟨a, ha, ht⟩
      refine ⟨_, _, ⟨.explicit hreceiver hload' himp, hvars⟩, ?_⟩
      rw [modify_const hdecl, hr.explicitReceiver]

/-- Where there is a receiver, or none is used implicitly, the step succeeds. -/
theorem resolveReceiver_ensures (hp : p.Consistent) (hr : p.Recoded r)
    (hdecl : r.functions[f.index]? = some decl) (hvars : p.VariablesKnown decl)
    (hmethods : ∀ g, .invokeSelf g ∈ decl.atoms → g.index < p.functions.size)
    (hmember : ∀ a ∈ decl.atoms, p.isImplicit a = true → ∃ g outer, p.Within f g ∧
      p.functions[g.index]? = some outer ∧ outer.kind.owner? ≠ none) :
    (resolveReceiver f).Ensures r fun _ _ => True := by
  have hf : f.index < p.functions.size := by
    rw [← hr.size]
    exact lt_of_get hdecl
  obtain ⟨o, ho⟩ := receiverWithin_answers hp (p.functions.size + 1) hf
  have ho' : r.receiverInScope f = .ok o := by
    rw [hr.receiverInScope]
    exact ho
  obtain ⟨uses, huses⟩ : (r.implicitUses decl.exprs).Answers :=
    implicitUses_answers (by rw [hr.definitions]; exact hvars) (by rw [hr.size]; exact hmethods)
  refine .ask ho' (.ask (functionAt_eq hdecl) (.ask huses ?_))
  cases uses with
  | nil => exact .pure trivial
  | cons use rest =>
    obtain ⟨a, ha, himp⟩ : ∃ a ∈ decl.atoms, p.isImplicit a = true := by
      by_contra hno
      refine List.cons_ne_nil use rest ((hr.implicitUses huses).2.mpr fun a ha => ?_)
      rw [← Bool.not_eq_true]
      exact fun ht => hno ⟨a, ha, ht⟩
    obtain ⟨g, outer, hg, houter, howner⟩ := hmember a ha himp
    obtain ⟨d, hd⟩ := receiverWithin_complete hp hg houter howner hf (Nat.lt_succ_of_lt hf)
    cases ho.symm.trans hd
    obtain ⟨g', outer', _, houter', hd'⟩ := receiverWithin_sound hp _ hf ho
    have hparam : d ∈ outer'.params := by
      obtain ⟨c, _, hc⟩ := Option.bind_eq_some_iff.mp hd'
      exact List.mem_of_head? hc
    obtain ⟨defn, hdefn, _⟩ := (hp.function houter').params d hparam
    rw [← hr.definitions] at hdefn
    have hload : r.load d = .ok (.variable defn.ty d) := by
      rw [Program.load, defnAt_eq hdefn]
      rfl
    exact .ask hload (.get (ensures_modifyFunction hdecl trivial))

end Pass

namespace Program

variable {p q : Program}

structure Resolved (p q : Program) : Prop where
  recoded : p.Recoded q
  known : ∀ {i : Nat} {decl : FunctionDecl}, p.functions[i]? = some decl → p.VariablesKnown decl
  function : ∀ {i : Nat} {decl : FunctionDecl}, p.functions[i]? = some decl →
    ∃ decl', q.functions[i]? = some decl' ∧ p.Resolves ⟨i⟩ decl decl'

theorem Resolved.function_of (h : p.Resolved q) (hdecl' : q.functions[f.index]? = some decl') :
    ∃ decl, p.functions[f.index]? = some decl ∧ p.Resolves f decl decl' := by
  obtain ⟨decl, hdecl⟩ := exists_of_lt (h.recoded.size ▸ lt_of_get hdecl')
  obtain ⟨_, hentry, hresolves⟩ := h.function hdecl
  cases hdecl'.symm.trans hentry
  exact ⟨decl, hdecl, hresolves⟩

theorem RecodesAll.resolved
    (h : p.RecodesAll (fun f decl decl' => p.Resolves f decl decl' ∧ p.VariablesKnown decl) q) :
    p.Resolved q where
  recoded := h.recoded
  known hdecl := by
    obtain ⟨_, _, _, hknown⟩ := h.function hdecl
    exact hknown
  function hdecl := by
    obtain ⟨decl', hdecl', hresolves, _⟩ := h.function hdecl
    exact ⟨decl', hdecl', hresolves⟩

theorem resolveReceivers_gives (h : Pass.resolveReceivers.Gives p () q) : p.Resolved q :=
  (recodesAll_of_gives (Pass.gives_get_bind.mp h) Pass.resolveReceiver_gives).resolved

/-- Receivers can be made explicit if every function that uses one is a member of a class or
nested in one. -/
theorem resolveReceivers_ensures (hp : p.Consistent)
    (hvars : ∀ {i : Nat} {decl : FunctionDecl}, p.functions[i]? = some decl →
      p.VariablesKnown decl)
    (hmethods : ∀ {i : Nat} {decl : FunctionDecl}, p.functions[i]? = some decl →
      ∀ g, .invokeSelf g ∈ decl.atoms → g.index < p.functions.size)
    (hmember : ∀ {i : Nat} {decl : FunctionDecl}, p.functions[i]? = some decl →
      ∀ a ∈ decl.atoms, p.isImplicit a = true → ∃ g outer, p.Within ⟨i⟩ g ∧
        p.functions[g.index]? = some outer ∧ outer.kind.owner? ≠ none) :
    Pass.resolveReceivers.Ensures p fun _ q => p.Resolved q := by
  refine .get (.mono (recodesAll_ensures ?_) fun _ _ h => h.resolved)
  intro f decl r hr hdecl hdecl'
  obtain ⟨_, r', hstep, _⟩ := Pass.resolveReceiver_ensures (f := f) hp hr hdecl' (hvars hdecl)
    (hmethods hdecl) (hmember hdecl)
  exact ⟨(), r', hstep, Pass.resolveReceiver_gives hr hdecl' hstep⟩

end Program

end StackBackend
