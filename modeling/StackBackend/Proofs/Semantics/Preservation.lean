import StackBackend.Proofs.Lowering.FunctionBody
import StackBackend.Proofs.Semantics.Handlers

/-! The code of an expression does what the expression means. -/

namespace StackBackend

theorem Tidy.lower (site : Site) (e : Expr) {regions : List Region} (mode : Mode)
    (hr : Tidy.Cleanups regions) : Tidy (site.lower e regions mode) where
  neat := Neat.composes.lower site e mode fun r hm code hc => (hr r hm code hc).neat
  emits := Emits.composes.lower site e mode fun r hm code hc => (hr r hm code hc).emits

namespace Tidy.Cleanups

variable {regions : List Region} {code : Option (Lower Unit)}

theorem cons (hr : Cleanups regions) (hc : ∀ m ∈ code, Tidy m) (isOpen : Bool) :
    Cleanups (⟨code, isOpen⟩ :: regions) := by
  intro r hm
  rcases List.mem_cons.mp hm with rfl | hm
  · exact hc
  · exact hr r hm

theorem bare (hr : Cleanups regions) (isOpen : Bool) : Cleanups (⟨none, isOpen⟩ :: regions) :=
  hr.cons (fun _ h => by cases h) isOpen

theorem add {m : Lower Unit} (hr : Cleanups regions) (hm : Tidy m) (isOpen : Bool) :
    Cleanups (⟨some m, isOpen⟩ :: regions) :=
  hr.cons (fun _ h => by cases h; exact hm) isOpen

end Tidy.Cleanups

def Node.field? : Node → Option (Ty × DefnId)
  | .expr (.field _ receiver d) | .expr (.initField _ receiver d _) => some (receiver.ty, d)
  | _ => none

/-- Every field is where the class that declares it keeps it. -/
def Runtime.UniformAt (R : Runtime) (n : Node) : Prop := ∀ a ∈ n.field?, R.Uniform a.1 a.2

theorem Meaning.attempt_bare {α : Type} (m : Meaning α) :
    m.attempt (fun _ => pure none) (pure ()) = m := by
  funext σ
  rcases hm : m σ with _ | ⟨(v | x) | a, σ'⟩ <;>
    simp [attempt, leaving, catching, observe, exit, Bind.bind, Pure.pure, hm]

namespace Image.Realizes

variable {I : Image} {site : Site} {regions : List Region} {pre : List Value} {m : Lower Unit}
  {act : Meaning Value}

theorem thenDiscard (h : I.Realizes regions pre m act fun v => [v]) (mode : Mode) :
    I.Realizes regions pre (do m; Lower.discard mode) act mode.leaves := by
  rw [← bind_pure act]
  exact h.bind fun v => discard mode v

mutual

theorem lower (h : I.Hosts site) (rounds : Nat) :
    ∀ (e : Expr) (regions : List Region) (mode : Mode), Tidy.Cleanups regions →
      e.All I.machine.UniformAt →
      I.Realizes regions [] (site.lower e regions mode)
        (I.machine.eval site.function.returnTy rounds e) mode.leaves
  | .literal _ value, regions, mode, _, _ => (literal value).thenDiscard mode
  | .uninitialized _, regions, mode, _, _ =>
    (emit_pure rfl Value.uninitialized fun m base => rfl).thenDiscard mode
  | .variable _ d, regions, mode, _, _ => (loadVariable h).thenDiscard mode
  | .field _ receiver d, regions, mode, hr, he => by
    obtain ⟨hfield, hreceiver⟩ := Expr.all_field.mp he
    exact bind (lower h rounds receiver regions .value hr hreceiver) fun r =>
      (loadField h (hfield _ rfl)).thenDiscard mode
  | .assign ty target value, regions, mode, hr, he => by
    obtain ⟨_, htarget, hvalue⟩ := Expr.all_assign.mp he
    cases target with
    | «variable» ty d =>
      exact bind (lower h rounds value regions .value hr hvalue) fun v =>
        bind (coerce value.ty ty v) fun w => storeAndLeave h mode
    | field ty receiver d =>
      obtain ⟨hfield, hreceiver⟩ := Expr.all_field.mp htarget
      exact bind (lower h rounds receiver regions .value hr hreceiver) fun r =>
        bind ((lower h rounds value regions .value hr hvalue).frame [r]) fun v =>
          bind ((coerce value.ty ty v).frame [r]) fun w => storeField h (hfield _ rfl) mode
    | _ => exact stuck (.lower site _ mode hr)
  | .compound ty op target value, regions, mode, hr, he => by
    obtain ⟨_, htarget, hvalue⟩ := Expr.all_compound.mp he
    cases target with
    | «variable» ty d =>
      refine orFail fun i hi => bind (loadVariable h) fun old => ?_
      exact bind ((lower h rounds value regions .value hr hvalue).frame [old]) fun v =>
        bind (emitBinary hi old v) fun new => storeAndLeave h mode
    | field ty receiver d =>
      obtain ⟨hfield, hreceiver⟩ := Expr.all_field.mp htarget
      refine orFail fun i hi => ?_
      refine bind (lower h rounds receiver regions .value hr hreceiver) fun r => ?_
      refine arrange (dup r) ?_
      refine bind ((loadField h (hfield _ rfl)).frame [r]) fun old => ?_
      exact bind ((lower h rounds value regions .value hr hvalue).frame [old, r]) fun v =>
        bind ((emitBinary hi old v).frame [r]) fun new => storeField h (hfield _ rfl) mode
    | _ => exact stuck (.lower site _ mode hr)
  | .initField _ receiver d value, regions, mode, hr, he => by
    obtain ⟨hfield, hvalue, hreceiver⟩ := Expr.all_initField.mp he
    refine bind (lower h rounds value regions .value hr hvalue) fun v => ?_
    refine lift .entryAt fun defn hdefn => ?_
    rw [h.defn? hdefn, Meaning.need_some_bind]
    refine bind (coerce value.ty defn.ty v) fun w => ?_
    refine bind ((lower h rounds receiver regions .value hr hreceiver).frame [w]) fun r => ?_
    exact bind (initField h (hfield _ rfl)) fun _ => unitIfValue mode
  | .binary _ op left right, regions, mode, hr, he => by
    obtain ⟨_, hleft, hright⟩ := Expr.all_binary.mp he
    exact bind (lower h rounds left regions .value hr hleft) fun a =>
      bind ((lower h rounds right regions .value hr hright).frame [a]) fun b =>
        orFail fun i hi => (emitBinary hi a b).thenDiscard mode
  | .unary _ op operand, regions, mode, hr, he => by
    obtain ⟨_, hoperand⟩ := Expr.all_unary.mp he
    exact bind (lower h rounds operand regions .value hr hoperand) fun a =>
      orFail fun i hi => (emitUnary hi a).thenDiscard mode
  | .and _ left right, regions, mode, hr, he => by
    obtain ⟨_, hleft, hright⟩ := Expr.all_and.mp he
    have hright := lower h rounds right regions .value hr hright
    refine bind (lower h rounds left regions .value hr hleft) fun a => thenDiscard ?_ mode
    refine truth (hright.tidy.shortCircuit true) fun b hb => ?_
    subst hb
    exact shortCircuit hright true b
  | .or _ left right, regions, mode, hr, he => by
    obtain ⟨_, hleft, hright⟩ := Expr.all_or.mp he
    have hright := lower h rounds right regions .value hr hright
    refine bind (lower h rounds left regions .value hr hleft) fun a => thenDiscard ?_ mode
    refine truth (hright.tidy.shortCircuit false) fun b hb => ?_
    subst hb
    have := shortCircuit hright false b
    cases b <;> exact this
  | .block _ stmts, regions, mode, hr, he =>
    lowerStmts h rounds stmts regions mode hr (Expr.all_block.mp he).2
  | .cond _ test onTrue none, regions, mode, hr, he => by
    obtain ⟨_, htest, htrue⟩ := Expr.all_when.mp he
    have htrue := lower h rounds onTrue regions .effect hr htrue
    exact bind (lower h rounds test regions .value hr htest) fun v =>
      truth (htrue.tidy.oneArm mode) fun b _ => oneArm htrue b mode
  | .cond _ test onTrue (some onFalse), regions, mode, hr, he => by
    obtain ⟨_, htest, htrue, hfalse⟩ := Expr.all_cond.mp he
    have htrue := lower h rounds onTrue regions mode hr htrue
    have hfalse := lower h rounds onFalse regions mode hr hfalse
    exact bind (lower h rounds test regions .value hr htest) fun v =>
      truth (htrue.tidy.twoArms hfalse.tidy) fun b _ => twoArms htrue hfalse b
  | .loop _ test body, regions, mode, hr, he => by
    obtain ⟨_, htest, hbody⟩ := Expr.all_loop.mp he
    exact loop (lower h rounds test regions .value hr htest)
      (lower h rounds body regions .effect hr hbody).ignore mode rounds
  | .throw _ operand, regions, mode, hr, he => by
    obtain ⟨_, hoperand⟩ := Expr.all_throw.mp he
    exact bind (lower h rounds operand regions .value hr hoperand) fun x => throw x
  | .ret _ none, regions, mode, hr, _ =>
    bind (emit_pure rfl Value.unit fun m base => rfl) fun v => ret hr v
  | .ret _ (some value), regions, mode, hr, he => by
    obtain ⟨_, hvalue⟩ := Expr.all_ret.mp he
    exact bind (lower h rounds value regions .value hr hvalue) fun v =>
      bind (coerce value.ty site.function.returnTy v) fun w => ret hr w
  | .attempt _ body [] none, regions, mode, hr, he => by
    have hbody := lower h rounds body regions mode hr (Expr.all_attempt_none.mp he).2.1
    rw [← Meaning.attempt_bare (I.machine.eval site.function.returnTy rounds body)] at hbody
    exact hbody
  | .attempt ty body (clause :: rest) none, regions, mode, hr, he => by
    obtain ⟨_, hbody, hclauses⟩ := Expr.all_attempt_none.mp he
    refine ⟨.lower site (.attempt ty body (clause :: rest) none) mode hr,
      fun hgives hs ht hP => ?_⟩
    have htries := Tries.askSlots h fun htypeof hsubtype =>
      lowerClauses h rounds htypeof hsubtype (clause :: rest) regions mode hr hclauses
    refine Runs.attempt (lower h rounds body _ mode (hr.bare true) hbody) (pure () rfl) hr
      htries.bare .handlerEnd ?_ hs ht hP
    simp only [bind_assoc]
    exact hgives
  | .attempt ty body [] (some cleanup), regions, mode, hr, he => by
    obtain ⟨_, hbody, _, hcleanup⟩ := Expr.all_attempt.mp he
    have hcleanup := (lower h rounds cleanup regions .effect hr hcleanup).ignore
    refine ⟨.lower site (.attempt ty body [] (some cleanup)) mode hr, fun hgives hs ht hP => ?_⟩
    exact Runs.attempt (lower h rounds body _ mode (hr.add hcleanup.tidy true) hbody) hcleanup hr
      .none (.cleanupEnd hcleanup) hgives hs ht hP
  | .attempt ty body (clause :: rest) (some cleanup), regions, mode, hr, he => by
    obtain ⟨_, hbody, hclauses, hcleanup⟩ := Expr.all_attempt.mp he
    have hcleanup := (lower h rounds cleanup regions .effect hr hcleanup).ignore
    refine ⟨.lower site (.attempt ty body (clause :: rest) (some cleanup)) mode hr,
      fun hgives hs ht hP => ?_⟩
    have htries := Tries.askSlots h fun htypeof hsubtype =>
      lowerClauses h rounds htypeof hsubtype (clause :: rest) _ mode (hr.add hcleanup.tidy false)
        hclauses
    refine Runs.attempt (lower h rounds body _ mode (hr.add hcleanup.tidy true) hbody) hcleanup hr
      htries (.cleanupEnd hcleanup) ?_ hs ht hP
    simp only [bind_assoc]
    exact hgives
  | .self _, _, mode, hr, _ | .convert _ _, _, mode, hr, _ | .call _ _ _ _, _, mode, hr, _
  | .invoke _ _ _ _ _, _, mode, hr, _ | .invokeSelf _ _ _ _, _, mode, hr, _
  | .new _ _ _ _, _, mode, hr, _ | .functionValue _ _, _, mode, hr, _ =>
    stuck (.lower site _ mode hr)

theorem lowerStmts (h : I.Hosts site) (rounds : Nat) :
    ∀ (stmts : List Stmt) (regions : List Region) (mode : Mode), Tidy.Cleanups regions →
      AllStmts I.machine.UniformAt stmts →
      I.Realizes regions [] (site.lowerStmts stmts regions mode)
        (I.machine.evalStmts site.function.returnTy rounds stmts) mode.leaves
  | [], _, mode, _, _ => unitIfValue mode
  | [.expr e], regions, mode, hr, hs => lower h rounds e regions mode hr (allStmts_expr.mp hs).2.1
  | .expr e :: next :: rest, regions, mode, hr, hs => by
    obtain ⟨_, he, hrest⟩ := allStmts_expr.mp hs
    exact bind (lower h rounds e regions .effect hr he) fun _ =>
      lowerStmts h rounds (next :: rest) regions mode hr hrest
  | .declare _ none :: rest, regions, mode, hr, hs =>
    lowerStmts h rounds rest regions mode hr (allStmts_declare.mp hs).2
  | .declare d (some init) :: rest, regions, mode, hr, hs => by
    obtain ⟨_, hinit, hrest⟩ := allStmts_define.mp hs
    refine bind (lower h rounds init regions .value hr hinit) fun v => ?_
    refine lift .entryAt fun defn hdefn => ?_
    rw [h.defn? hdefn, Meaning.need_some_bind]
    refine bind (coerce init.ty defn.ty v) fun w => ?_
    have hstore := bind (storeLocal (d := d) (v := w) h) fun _ =>
      lowerStmts h rounds rest regions mode hr hrest
    rw [bind_assoc] at hstore
    exact hstore
  | .function _ :: rest, regions, mode, hr, hs =>
    lowerStmts h rounds rest regions mode hr (allStmts_function.mp hs).2

theorem lowerClauses (h : I.Hosts site) (rounds : Nat) {typeofSlot subtypeSlot : Nat}
    (htypeof : I.machine.builtinSlot? objectClass typeofMethod = some typeofSlot)
    (hsubtype : I.machine.builtinSlot? typeClass isSubtypeOfMethod = some subtypeSlot) :
    ∀ (clauses : List Clause) (regions : List Region) (mode : Mode), Tidy.Cleanups regions →
      AllClauses I.machine.UniformAt clauses →
      I.Tries regions (site.lowerClauses typeofSlot subtypeSlot clauses regions mode)
        (I.machine.evalClauses site.function.returnTy rounds clauses) mode.leaves
  | [], _, _, _, _ => .none
  | .mk binding guard body :: rest, regions, mode, hr, hc => by
    obtain ⟨_, hbody, hrest⟩ := allClauses_cons.mp hc
    exact .clause h htypeof hsubtype (lower h rounds body regions mode hr hbody)
      (lowerClauses h rounds htypeof hsubtype rest regions mode hr hrest) binding guard

end

end Image.Realizes

end StackBackend
