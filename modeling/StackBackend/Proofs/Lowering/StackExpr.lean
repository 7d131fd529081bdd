import StackBackend.Proofs.Lowering.StackCode

/-! Expressions under a discipline of the stack. One that is lowered for its value adds exactly
that value, and one that is lowered for its effect adds nothing. A call takes what was pushed
for it, which the expression tells. Of cleanups this holds where the value of what they belong
to is asked for, or where values do not count. -/

namespace StackBackend

open Lower

variable {takes : Inst → Nat → Prop}
variable {args : List Ty} {c : ClassId} {n : Nat} {params : List TypeParamId}

/-! ## Operands -/

mutual
/-- Each class type in the type may take as many arguments as it has. -/
def Ty.Feeds (takes : Inst → Nat → Prop) : Ty → Prop
  | .object c args _ => takes (.classType c) args.length ∧ TysFeed takes args
  | .variable _ | .unit | .boolean | .i8 | .i16 | .i32 | .i64 | .f32 | .f64 | .nothing | .null => True
def TysFeed (takes : Inst → Nat → Prop) : List Ty → Prop
  | [] => True
  | ty :: rest => ty.Feeds takes ∧ TysFeed takes rest
end

theorem tysFeed_iff {tys : List Ty} : TysFeed takes tys ↔ ∀ ty ∈ tys, ty.Feeds takes := by
  induction tys with
  | nil => simp [TysFeed]
  | cons ty rest ih => rw [TysFeed, ih, List.forall_mem_cons]

mutual
theorem Ty.Feeds.substitute
    (ha : TysFeed takes args) : ∀ {ty : Ty}, ty.Feeds takes → (ty.substitute params args).Feeds takes
  | .variable v, h => by
    rw [Ty.substitute]
    cases hv : Ty.argumentFor params args v with
    | none => exact h
    | some ty =>
      obtain ⟨i, _, hi⟩ := Option.bind_eq_some_iff.mp hv
      exact tysFeed_iff.mp ha ty (List.mem_of_getElem? hi)
  | .object c targs nullable, ⟨htakes, htargs⟩ => by
    rw [Ty.substitute]
    refine ⟨?_, TysFeed.substitute ha htargs⟩
    rw [Ty.substituteAll_eq_map, List.length_map]
    exact htakes
  | .unit, h | .boolean, h | .i8, h | .i16, h | .i32, h | .i64, h | .f32, h | .f64, h
  | .nothing, h | .null, h => h
theorem TysFeed.substitute
    (ha : TysFeed takes args) : ∀ {tys : List Ty}, TysFeed takes tys →
      TysFeed takes (Ty.substituteAll params args tys)
  | [], _ => trivial
  | _ :: _, ⟨hty, hrest⟩ => ⟨Ty.Feeds.substitute ha hty, TysFeed.substitute ha hrest⟩
end

/-- How many operands a call has pushed: the receiver, the arguments and the type arguments. -/
def Expr.OwnFeeds (site : Site) (takes : Inst → Nat → Prop) : Expr → Prop
  | .call _ f typeArgs args =>
    TysFeed takes typeArgs ∧ takes (.call f) (typeArgs.length + args.length)
  | .invoke _ receiver method typeArgs args =>
    TysFeed takes typeArgs ∧ ∀ ownerArgs i s t, site.OwnerArgs receiver.ty method ownerArgs →
      (site.dispatch receiver.ty method args.length).Gives s i t →
      takes i (typeArgs.length + (ownerArgs.length + (args.length + 1)))
  | .new ty c f args =>
    takes (.allocate c) ((ty.classTy?.map ClassTy.args).getD []).length ∧
      takes (.call f) (((ty.classTy?.map ClassTy.args).getD []).length + (args.length + 1))
  | _ => True

def Node.Feeds (site : Site) (takes : Inst → Nat → Prop) : Node → Prop
  | .expr e => e.ty.Feeds takes ∧ e.OwnFeeds site takes
  | .stmt _ | .clause _ => True

/-- Every instruction of the function may take what is pushed for it. -/
structure Site.Feeds (site : Site) (takes : Inst → Nat → Prop) : Prop where
  exprs : ∀ e ∈ site.function.exprs, e.All (Node.Feeds site takes)
  defnTy : ∀ d defn, site.program.defnAt d = .ok defn → defn.ty.Feeds takes
  returnTy : site.function.returnTy.Feeds takes
  superArgs : ∀ c cls st, site.program.classAt c = .ok cls → cls.supertype = some st →
    TysFeed takes st.args
  superCall : ∀ c cls st f, site.function.kind = .constructor c → site.program.classAt c = .ok cls →
    cls.supertype = some st → site.program.defaultConstructor st.cls = .ok f →
    takes (.call f) (st.args.length + 1)
  chain : ∀ c cls, site.function.kind = .constructor c → site.program.classAt c = .ok cls →
    (site.function.chain.getD .initial).call.Feeds cls takes
  initializer : ∀ c cls f, site.function.kind = .constructor c → site.program.classAt c = .ok cls →
    cls.initializer = some f → takes (.call f) (cls.typeParams.length + 1)
  /-- Handlers ask for the type of an exception and compare it with a type object. -/
  typeof : ∀ slot, Site.slotIn? site.program typeofMethod objectClass = .ok (some slot) →
    takes (.callVirtual 1 slot) 1
  subtype : ∀ slot, Site.slotIn? site.program isSubtypeOfMethod typeClass = .ok (some slot) →
    takes (.callVirtual 2 slot) 2
  construct : takes (.call typeConstructor) 2

/-! ## Expressions -/

namespace Discipline

variable {F : Type} {D : Discipline F} {site : Site} {known : List F} {x y : F}

/-- A `return` in the regions gets out of them, with all cleanups run where they belong. -/
def Exits (D : Discipline F) : List Region → F → Prop
  | [], x => D.IsBase x
  | r :: regions, x =>
    (∀ code ∈ r.cleanup, ∀ known y, D.Exits regions y → D.Carries known code y y) ∧
      if r.isOpen then ∃ h y, x = D.guard h y ∧ D.Exits regions y else D.Exits regions x

theorem sameRegions_iff_exits : ∀ {regions : List Region} {x : F},
    SameRegions D (fun _ x y m _ => ∀ known, D.Carries known m x y) regions regions x ↔
      D.Exits regions x
  | [], _ => .rfl
  | r :: regions, x => by
    simp only [SameRegions, Exits, sameRegions_iff_exits, true_and]
    refine and_congr_left fun _ => ⟨fun h code hc known y hy => ?_, fun h y hy known => ?_⟩
    · have hcode := h y hy known
      rw [hc] at hcode
      exact hcode
    · cases hc : r.cleanup with
      | none => exact .pure ()
      | some code => exact h code hc known y hy

theorem permits (hf : site.Feeds D.takes) :
    Permits site D (Node.Feeds site D.takes) (Ty.Feeds D.takes) D.Moves where
  object h := ⟨tysFeed_iff.mp h.2, fun _ => .applied rfl h.1⟩
  typeVar _ _ := .push rfl
  substitute ha := .substitute (tysFeed_iff.mpr ha)
  exprTy h := h.1
  defnTy := hf.defnTy
  returnTy := hf.returnTy
  superArgs c cls st hc hst := tysFeed_iff.mp (hf.superArgs c cls st hc hst)
  typeParams _ _ _ _ _ := trivial
  slot _ _ _ := ⟨fun _ => .push rfl, fun _ => .pop rfl⟩
  receiver _ _ := .push rfl
  global _ _ _ _ _ := ⟨fun _ => .push rfl, fun _ => .pop rfl⟩
  call h := ⟨tysFeed_iff.mp h.2.1, fun _ => .applied rfl h.2.2⟩
  invoke h := ⟨tysFeed_iff.mp h.2.1, fun ownerArgs i s t howner hi _ =>
    .applied (by rcases (Site.gives_dispatch hi).2 with rfl | ⟨slot, rfl⟩ <;> rfl)
      (h.2.2 ownerArgs i s t howner hi)⟩
  new h := ⟨fun _ => .applied rfl h.2.1, fun _ => .applied rfl h.2.2⟩
  guard _ ha hb := ⟨fun _ => .applied rfl (hf.typeof _ ha), fun _ => .push rfl, fun _ => .push rfl,
    fun _ => .applied rfl hf.construct, fun _ => .applied rfl (hf.subtype _ hb)⟩
  self _ _ _ := .push rfl
  superCall c cls st f hkind hc hst hd _ := .applied rfl (hf.superCall c cls st f hkind hc hst hd)
  chain c cls hkind hc := by
    have h := hf.chain c cls hkind hc
    generalize (site.function.chain.getD .initial).call = call at h ⊢
    cases call with
    | implicit => trivial
    | super _ _ => exact fun _ => .applied rfl h
    | sibling _ _ => exact fun _ => .applied rfl h
  initializer c cls f hkind hc h _ := .applied rfl (hf.initializer c cls f hkind hc h)

namespace Carries

theorem lower (hf : site.Feeds D.takes) (e : Expr) (regions : List Region) (mode : Mode)
    (he : e.All (Node.Feeds site D.takes)) (hc : D.Flat ∨ e.CleanupsValued mode)
    (hr : D.Exits regions x) : D.Carries known (site.lower e regions mode) x (D.lift mode x) :=
  (composes.walks (permits hf) rfl).lower (o := none) e mode he hc
    (sameRegions_iff_exits.mpr hr) known

theorem lowerEntry (hf : site.Feeds D.takes) (hx : D.IsBase x)
    (hc : D.Flat ∨ site.function.CleanupsValued) : D.Carries known site.lowerEntry x y :=
  (composes.walks (permits hf) rfl).lowerEntry (o := none) hx hf.exprs hc known

end Carries

end Discipline

end StackBackend
