import StackBackend.Stored.Expr
import StackBackend.Proofs.Expr.Forms
import StackBackend.Proofs.Stored.Survival

/-! Types and expressions survive storage. Readers of nested data count down the
nesting they may still meet, so the proofs go by induction on that count: what is
inside a tree nests less deeply than the tree. -/

namespace StackBackend

open List (map_cons forall_mem_cons)
open Json (Survives)

variable {tys : List Ty} {ty : Ty} {e body : Expr} {depth : Nat} {args : List Expr}
  {clauses : List Clause}

/-! ### Types -/

namespace Ty

mutual
/-- All positions in the type fit the stored form. -/
def Fits : Ty → Prop
  | .object c args _ => c.Fits ∧ AllFit args
  | .variable v => v.Fits
  | .unit | .boolean | .i8 | .i16 | .i32 | .i64 | .f32 | .f64 | .nothing | .null => True
def AllFit : List Ty → Prop
  | [] => True
  | ty :: rest => ty.Fits ∧ AllFit rest
end

theorem allFit_iff : AllFit tys ↔ ∀ ty ∈ tys, ty.Fits := by
  induction tys with
  | nil => simp [AllFit]
  | cons ty rest ih => simp [AllFit, ih]

theorem allToJson_eq_map (tys : List Ty) : allToJson tys = tys.map toJson := by
  induction tys with
  | nil => rfl
  | cons ty rest ih => rw [allToJson, ih, map_cons]

theorem survives_within (depth : Nat) :
    ∀ ty : Ty, ty.Fits → ty.toJson.depth < depth → Survives toJson (readWithin depth) ty := by
  induction depth with
  | zero => intro ty _ hdepth; omega
  | succ depth ih =>
    intro ty hty hdepth
    cases ty with
    | object c args nullable =>
      obtain ⟨hc, hargs⟩ := hty
      have hlist : Survives (.ofList toJson) (Json.list? (readWithin depth)) args := by
        refine .list fun arg harg => ih arg (allFit_iff.mp hargs arg harg) ?_
        have hle : arg.toJson.depth ≤ Json.depthItems (args.map toJson) :=
          Json.depth_le_depthItems (List.mem_map_of_mem harg)
        simp only [toJson, Json.tagged, Json.depth, Json.depthMembers, allToJson_eq_map] at hdepth
        omega
      refine .of_tagged rfl ?_ ?_
      · rw [allToJson_eq_map]
        exact ⟨hc.survives.writable, hlist.writable, trivial, trivial⟩
      · have hread : readWithin (depth + 1) (object c args nullable).toJson = (do
            let c ← Ref.ofJson? c.toJson
            let args ← Json.list? (readWithin depth) (.array (allToJson args))
            pure (.object c args nullable)) := rfl
        rw [← toJson, hread, allToJson_eq_map, hc.survives.read]
        exact congrArg (Option.bind · _) hlist.read
    | «variable» v =>
      have hv : v.Fits := hty
      exact .of_payload hv.survives rfl (fun _ => rfl) rfl
    | _ => exact .of_plain rfl rfl

theorem Fits.survives (h : ty.Fits) : Survives toJson ofJson? ty :=
  let kept := survives_within (ty.toJson.depth + 1) ty h (Nat.lt_succ_self _)
  ⟨kept.writable, kept.not_null, kept.read⟩

theorem survives_list (h : ∀ ty ∈ tys, ty.Fits) :
    Survives (.ofList toJson) (Json.list? ofJson?) tys :=
  .list fun ty hty => (h ty hty).survives

end Ty

namespace ClassTy

def Fits (c : ClassTy) : Prop := c.cls.Fits ∧ ∀ ty ∈ c.args, ty.Fits

theorem Fits.survives {c : ClassTy} (h : c.Fits) : Survives toJson ofJson? c := by
  have hargs := Ty.survives_list h.2
  exact .of_object rfl ⟨h.1.survives.writable, hargs.writable, trivial, trivial⟩
    (Json.read₂ h.1.survives.read hargs.read rfl)

end ClassTy

theorem Storage.survives (s : Storage) : Survives toJson ofJson? s :=
  .of_plain rfl (by cases s <;> rfl)

/-! ### Expressions -/

namespace Literal

/-- Numbers with a fraction are not covered: infinities have no stored form. -/
def Fits : Literal → Prop
  | .f32 _ | .f64 _ => False
  | _ => True

theorem survives_i8 (n : Int8) : Survives .ofInt (signed? 8) n.toInt :=
  .int n.le_toInt n.toInt_lt

theorem survives_i16 (n : Int16) : Survives .ofInt (signed? 16) n.toInt :=
  .int n.le_toInt n.toInt_lt

theorem survives_i32 (n : Int32) : Survives .ofInt (signed? 32) n.toInt :=
  .int n.le_toInt n.toInt_lt

theorem survives_i64 (n : Int64) : Survives .ofInt (signed? 64) n.toInt :=
  .int n.le_toInt n.toInt_lt

theorem Fits.survives {v : Literal} (h : v.Fits) : Survives toJson ofJson? v := by
  cases v with
  | f32 | f64 => cases h
  | unit | null => exact .of_plain rfl rfl
  | boolean | string => exact .of_tagged rfl trivial rfl
  | i8 n => exact .of_payload (survives_i8 n) rfl (fun _ => rfl) (by simp)
  | i16 n => exact .of_payload (survives_i16 n) rfl (fun _ => rfl) (by simp)
  | i32 n => exact .of_payload (survives_i32 n) rfl (fun _ => rfl) (by simp)
  | i64 n => exact .of_payload (survives_i64 n) rfl (fun _ => rfl) (by simp)

end Literal

theorem BinaryOp.survives (op : BinaryOp) : Survives toJson ofJson? op :=
  .of_plain rfl (by cases op <;> rfl)

theorem UnaryOp.survives (op : UnaryOp) : Survives toJson ofJson? op :=
  .of_plain rfl (by cases op <;> rfl)

/-- What the node itself refers to fits the stored form. -/
def Node.Fits : Node → Prop
  | .expr (.literal ty v) => ty.Fits ∧ v.Fits
  | .expr (.variable ty d) | .expr (.field ty _ d) | .expr (.initField ty _ d _) =>
    ty.Fits ∧ d.Fits
  | .expr (.call ty f typeArgs _) | .expr (.invoke ty _ f typeArgs _)
  | .expr (.invokeSelf ty f typeArgs _) =>
    ty.Fits ∧ f.Fits ∧ ∀ arg ∈ typeArgs, arg.Fits
  | .expr (.new ty c f _) => ty.Fits ∧ c.Fits ∧ f.Fits
  | .expr (.functionValue ty f) => ty.Fits ∧ f.Fits
  | .expr e => e.ty.Fits
  | .stmt (.expr _) => True
  | .stmt (.declare d _) => d.Fits
  | .stmt (.function f) => f.Fits
  | .clause c => (∀ d ∈ c.binding, d.Fits) ∧ ∀ g ∈ c.guard, g.Fits

namespace Expr

def Fits (e : Expr) : Prop := e.All Node.Fits

theorem argsToJson_eq_map (args : List Expr) : argsToJson args = args.map toJson := by
  induction args with
  | nil => rfl
  | cons e rest ih => rw [argsToJson, ih, map_cons]

theorem stmtsToJson_eq_map (stmts : List Stmt) : stmtsToJson stmts = stmts.map stmtToJson := by
  induction stmts with
  | nil => rfl
  | cons s rest ih => rw [stmtsToJson, ih, map_cons]

theorem clausesToJson_eq_map (clauses : List Clause) :
    clausesToJson clauses = clauses.map clauseToJson := by
  induction clauses with
  | nil => rfl
  | cons c rest ih => rw [clausesToJson, ih, map_cons]

theorem optionToJson_eq (e : Option Expr) : optionToJson e = .ofOption toJson e := by
  cases e <;> rfl

theorem survives_option {value : Option Expr} {read : Json → Option Expr}
    (h : ∀ e ∈ value, Survives toJson read e) :
    (optionToJson value).Writable ∧ Json.maybe read (some (optionToJson value)) = some value := by
  rw [optionToJson_eq]
  exact ⟨Survives.writable_option h, Survives.maybe_option h⟩

theorem survives_node {form : Json}
    (he : e.toJson = node ty form) (hty : ty.Fits) (hform : form.Writable)
    (hread : readForm (readWithin depth) ty form = some e) :
    Survives toJson (readWithin (depth + 1)) e := by
  refine .of_object he ⟨hform, hty.survives.writable, trivial⟩ ?_
  rw [readWithin, Json.fields?_object (by rfl) (by decide)]
  simp only [List.map, Json.need, Option.bind_eq_bind, Option.bind_some, hty.survives.read, hread]

theorem depthItems_parts (e : Expr) : Json.depthItems (e.parts.map toJson) < e.toJson.depth := by
  cases e with
  | cond ty test onTrue onFalse =>
    cases onFalse <;> simp only [parts, List.map, toJson, node, Json.tagged, Json.depth,
      Json.depthMembers, Json.depthItems, optionToJson] <;> omega
  | ret ty value =>
    cases value <;> simp only [parts, List.map, toJson, node, Json.tagged, Json.depth,
      Json.depthMembers, Json.depthItems, optionToJson] <;> omega
  | _ =>
    simp only [parts, List.map, toJson, node, callForm, Json.tagged, Json.depth,
      Json.depthMembers, Json.depthItems, argsToJson_eq_map]
    omega

theorem survives_items {α : Type} {write : α → Json} {read : Json → Option α} {xs : List α}
    {writeAll : List α → List Json} (heq : ∀ xs, writeAll xs = xs.map write)
    (h : ∀ x ∈ xs, Survives write read x) :
    Survives (fun xs => .array (writeAll xs)) (Json.list? read) xs := by
  have hlist := Survives.list h
  refine ⟨?_, by simp, ?_⟩ <;> simp only [heq]
  · exact hlist.writable
  · exact hlist.read

theorem survives_call {callee : Json} {typeArgs : List Ty}
    (he : e.toJson = node ty (callForm callee typeArgs (argsToJson args)))
    (hty : ty.Fits) (hcallee : callee.Writable) (htypes : ∀ arg ∈ typeArgs, arg.Fits)
    (hargs : ∀ e ∈ args, Survives toJson (readWithin depth) e)
    (hread : readCall (readWithin depth) ty callee typeArgs args = some e) :
    Survives toJson (readWithin (depth + 1)) e := by
  have htypes := Ty.survives_list htypes
  have hargs := survives_items argsToJson_eq_map hargs
  refine survives_node he hty ⟨⟨hcallee, htypes.writable, hargs.writable, trivial⟩, trivial⟩ ?_
  have hform : readForm (readWithin depth) ty (callForm callee typeArgs (argsToJson args)) = (do
      let typeArgs ← Json.list? Ty.ofJson? (.ofList Ty.toJson typeArgs)
      let args ← Json.list? (readWithin depth) (.array (argsToJson args))
      readCall (readWithin depth) ty callee typeArgs args) := rfl
  rw [hform, htypes.read, hargs.read]
  exact hread

theorem survives_plain (he : e.isPlain = true) (hnode : Node.Fits (.expr e))
    (hparts : ∀ part ∈ e.parts, Survives toJson (readWithin depth) part) :
    Survives toJson (readWithin (depth + 1)) e := by
  cases e with
  | block | attempt => cases he
  | literal ty v | «variable» ty v | functionValue ty v =>
    obtain ⟨hty, hv⟩ := hnode
    refine survives_node rfl hty ⟨hv.survives.writable, trivial⟩ ?_
    simp [readForm, Json.tagged, Json.variant?, hv.survives.read]
  | uninitialized ty | self ty => exact survives_node rfl hnode trivial rfl
  | field ty receiver d =>
    obtain ⟨hty, hd⟩ := hnode
    have hreceiver := hparts receiver (by simp [parts])
    exact survives_node rfl hty ⟨⟨hreceiver.writable, hd.survives.writable, trivial⟩, trivial⟩
      (Json.read₂ hreceiver.read hd.survives.read rfl)
  | initField ty receiver d value =>
    obtain ⟨hty, hd⟩ := hnode
    have hvalue := hparts value (by simp [parts])
    have hreceiver := hparts receiver (by simp [parts])
    exact survives_node rfl hty
      ⟨⟨hreceiver.writable, hd.survives.writable, hvalue.writable, trivial⟩, trivial⟩
      (Json.read₃ hreceiver.read hd.survives.read hvalue.read rfl)
  | assign ty left right | loop ty left right =>
    have hleft := hparts left (by simp [parts])
    have hright := hparts right (by simp [parts])
    exact survives_node rfl hnode ⟨⟨hleft.writable, hright.writable, trivial⟩, trivial⟩
      (Json.read₂ hleft.read hright.read rfl)
  | compound ty op left right | binary ty op left right =>
    have hleft := hparts left (by simp [parts])
    have hright := hparts right (by simp [parts])
    exact survives_node rfl hnode
      ⟨⟨op.survives.writable, hleft.writable, hright.writable, trivial⟩, trivial⟩
      (Json.read₃ op.survives.read hleft.read hright.read rfl)
  | unary ty op operand =>
    have hoperand := hparts operand (by simp [parts])
    exact survives_node rfl hnode ⟨⟨op.survives.writable, hoperand.writable, trivial⟩, trivial⟩
      (Json.read₂ op.survives.read hoperand.read rfl)
  | convert ty operand | throw ty operand =>
    have hoperand := hparts operand (by simp [parts])
    refine survives_node rfl hnode ⟨hoperand.writable, trivial⟩ ?_
    simp [readForm, Json.tagged, Json.variant?, hoperand.read]
  | and ty left right | or ty left right =>
    have hleft := hparts left (by simp [parts])
    have hright := hparts right (by simp [parts])
    refine survives_node rfl hnode ⟨⟨hleft.writable, hright.writable, trivial⟩, trivial⟩ ?_
    simp [readForm, Json.tagged, Json.variant?, Json.pair?, hleft.read, hright.read]
  | cond ty test onTrue onFalse =>
    have htest := hparts test (by cases onFalse <;> simp [parts])
    have honTrue := hparts onTrue (by cases onFalse <;> simp [parts])
    have honFalse : ∀ e ∈ onFalse, Survives toJson (readWithin depth) e := fun e he =>
      hparts e (by rw [Option.mem_def.mp he]; simp [parts])
    obtain ⟨hwritable, honFalse⟩ := survives_option honFalse
    exact survives_node rfl hnode ⟨⟨htest.writable, honTrue.writable, hwritable, trivial⟩, trivial⟩
      (Json.read₃ htest.read honTrue.read honFalse rfl)
  | ret ty value =>
    have hvalue : ∀ e ∈ value, Survives toJson (readWithin depth) e := fun e he =>
      hparts e (by rw [Option.mem_def.mp he]; simp [parts])
    obtain ⟨hwritable, hvalue⟩ := survives_option hvalue
    refine survives_node rfl hnode ⟨hwritable, trivial⟩ ?_
    simp [readForm, Json.tagged, Json.variant?, hvalue]
  | call ty f typeArgs args | invokeSelf ty f typeArgs args =>
    obtain ⟨hty, hf, htypes⟩ := hnode
    refine survives_call rfl hty ⟨hf.survives.writable, trivial⟩ htypes hparts ?_
    simp [readCall, Json.tagged, Json.variant?, hf.survives.read]
  | invoke ty receiver f typeArgs args =>
    obtain ⟨hty, hf, htypes⟩ := hnode
    have hreceiver := hparts receiver (by simp [parts])
    exact survives_call rfl hty
      ⟨⟨hreceiver.writable, hf.survives.writable, trivial⟩, trivial⟩ htypes
      (fun e he => hparts e (by simp [parts, he]))
      (Json.read₂ (m := fun receiver f => invoke ty receiver f typeArgs args) hreceiver.read
        hf.survives.read rfl)
  | new ty c f args =>
    obtain ⟨hty, hc, hf⟩ := hnode
    have hargs : Survives (fun args => .array (argsToJson args)) _ args :=
      survives_items argsToJson_eq_map hparts
    exact survives_node rfl hty
      ⟨⟨hc.survives.writable, hf.survives.writable, hargs.writable, trivial⟩, trivial⟩
      (Json.read₃ hc.survives.read hf.survives.read hargs.read rfl)

/-! Statements and clauses survive if the expressions in them do. -/

section

variable {read : Json → Option Expr}

theorem survives_declare {d : DefnId} {init : Option Expr} (hd : d.Fits)
    (hinit : ∀ e ∈ init, Survives toJson read e) :
    Survives stmtToJson (readStmt read) (.declare d init) := by
  obtain ⟨hwritable, hinit⟩ := survives_option hinit
  exact .of_tagged rfl ⟨hd.survives.writable, hwritable, trivial⟩
    (Json.read₂ hd.survives.read hinit rfl)

theorem survives_clause {binding : Option DefnId} {guard : Option ClassId}
    (hnode : Node.Fits (.clause (.mk binding guard body))) (hbody : Survives toJson read body) :
    Survives clauseToJson (readClause read) (.mk binding guard body) := by
  have hbinding : ∀ d ∈ binding, Survives Ref.toJson Ref.ofJson? d := Ref.survives_option hnode.1
  have hguard : ∀ c ∈ guard, Survives Ref.toJson Ref.ofJson? c := Ref.survives_option hnode.2
  exact .of_object rfl ⟨Survives.writable_option hbinding, Survives.writable_option hguard,
    hbody.writable, trivial⟩
    (Json.read₃ (Survives.maybe_option hbinding) (Survives.maybe_option hguard) hbody.read rfl)

end

theorem survives_attempt {cleanup : Option Expr} (hty : ty.Fits)
    (hbody : Survives toJson (readWithin depth) body)
    (hclauses : ∀ c ∈ clauses, Survives clauseToJson (readClause (readWithin depth)) c)
    (hcleanup : ∀ e ∈ cleanup, Survives toJson (readWithin depth) e) :
    Survives toJson (readWithin (depth + 1)) (.attempt ty body clauses cleanup) := by
  have hclauses := survives_items clausesToJson_eq_map hclauses
  obtain ⟨hwritable, hcleanup⟩ := survives_option hcleanup
  exact survives_node rfl hty ⟨⟨hbody.writable, hclauses.writable, hwritable, trivial⟩, trivial⟩
    (Json.read₃ hbody.read hclauses.read hcleanup rfl)

/-- What is to be shown of expressions, and of lists of arguments, statements and clauses:
they survive with a reader that goes down far enough. -/
theorem survivesInduction : ExprInduction
    (fun e => e.Fits → ∀ depth, e.toJson.depth < depth → Survives toJson (readWithin depth) e)
    (fun args => AllArgs Node.Fits args → ∀ depth,
      Json.depthItems (args.map toJson) < depth → ∀ e ∈ args, Survives toJson (readWithin depth) e)
    (fun stmts => AllStmts Node.Fits stmts → ∀ depth,
      Json.depthItems (stmts.map stmtToJson) ≤ depth →
        ∀ s ∈ stmts, Survives stmtToJson (readStmt (readWithin depth)) s)
    (fun clauses => AllClauses Node.Fits clauses → ∀ depth,
      Json.depthItems (clauses.map clauseToJson) ≤ depth →
        ∀ c ∈ clauses, Survives clauseToJson (readClause (readWithin depth)) c) where
  plain e he ih h depth hdepth := by
    obtain ⟨hnode, hargs⟩ := (all_plain he).mp h
    cases depth with
    | zero => omega
    | succ depth =>
      have hlt := depthItems_parts e
      exact survives_plain he hnode (ih hargs depth (by omega))
  block ty stmts ih h depth hdepth := by
    obtain ⟨hty, hstmts⟩ := all_block.mp h
    simp only [toJson, node, Json.tagged, Json.depth, Json.depthMembers,
      stmtsToJson_eq_map] at hdepth
    cases depth with
    | zero => omega
    | succ depth =>
      have hkept := survives_items stmtsToJson_eq_map (ih hstmts depth (by omega))
      refine survives_node rfl hty ⟨hkept.writable, trivial⟩ ?_
      simp [readForm, Json.tagged, Json.variant?, hkept.read]
  attempt ty body clauses ihbody ihclauses h depth hdepth := by
    obtain ⟨hty, hbody, hclauses⟩ := all_attempt_none.mp h
    simp only [toJson, node, Json.tagged, Json.depth, Json.depthMembers,
      clausesToJson_eq_map] at hdepth
    cases depth with
    | zero => omega
    | succ depth =>
      exact survives_attempt hty (ihbody hbody depth (by omega))
        (ihclauses hclauses depth (by omega)) (by simp)
  cleanup ty body clauses cleanup ihbody ihclauses ihcleanup h depth hdepth := by
    obtain ⟨hty, hbody, hclauses, hcleanup⟩ := all_attempt.mp h
    simp only [toJson, node, Json.tagged, Json.depth, Json.depthMembers,
      clausesToJson_eq_map, optionToJson] at hdepth
    cases depth with
    | zero => omega
    | succ depth =>
      have hlast := ihcleanup hcleanup depth (by omega)
      exact survives_attempt hty (ihbody hbody depth (by omega))
        (ihclauses hclauses depth (by omega)) (by simpa using hlast)
  noArgs := by simp
  arg e rest ihe ihrest h depth hdepth := by
    rw [map_cons, Json.depthItems] at hdepth
    obtain ⟨he, hrest⟩ := allArgs_cons.mp h
    exact forall_mem_cons.mpr
      ⟨ihe he depth (by omega), ihrest hrest depth (by omega)⟩
  noStmts := by simp
  expr e rest ihe ihrest h depth hdepth := by
    rw [map_cons, Json.depthItems, stmtToJson] at hdepth
    simp only [Json.tagged, Json.depth, Json.depthMembers] at hdepth
    obtain ⟨-, he, hrest⟩ := allStmts_expr.mp h
    have hkept := ihe he depth (by omega)
    exact forall_mem_cons.mpr
      ⟨.of_payload hkept rfl (fun _ => rfl) rfl, ihrest hrest depth (by omega)⟩
  declare d rest ihrest h depth hdepth := by
    rw [map_cons, Json.depthItems] at hdepth
    obtain ⟨hd, hrest⟩ := allStmts_declare.mp h
    exact forall_mem_cons.mpr
      ⟨survives_declare hd (by simp), ihrest hrest depth (by omega)⟩
  define d init rest ihinit ihrest h depth hdepth := by
    rw [map_cons, Json.depthItems, stmtToJson] at hdepth
    simp only [Json.tagged, Json.depth, Json.depthMembers, optionToJson] at hdepth
    obtain ⟨hd, hinit, hrest⟩ := allStmts_define.mp h
    have hkept := ihinit hinit depth (by omega)
    exact forall_mem_cons.mpr
      ⟨survives_declare hd (by simpa using hkept), ihrest hrest depth (by omega)⟩
  function f rest ihrest h depth hdepth := by
    rw [map_cons, Json.depthItems] at hdepth
    obtain ⟨hf, hrest⟩ := allStmts_function.mp h
    have hf : f.Fits := hf
    exact forall_mem_cons.mpr
      ⟨.of_payload hf.survives rfl (fun _ => rfl) rfl, ihrest hrest depth (by omega)⟩
  noClauses := by simp
  clause binding guard body rest ihbody ihrest h depth hdepth := by
    rw [map_cons, Json.depthItems, clauseToJson] at hdepth
    simp only [Json.depth, Json.depthMembers] at hdepth
    obtain ⟨hnode, hbody, hrest⟩ := allClauses_cons.mp h
    exact forall_mem_cons.mpr
      ⟨survives_clause hnode (ihbody hbody depth (by omega)), ihrest hrest depth (by omega)⟩

theorem Fits.survives (h : e.Fits) : Survives toJson ofJson? e :=
  let kept := survivesInduction.exprs e h (e.toJson.depth + 1) (Nat.lt_succ_self _)
  ⟨kept.writable, kept.not_null, kept.read⟩

end Expr

end StackBackend
