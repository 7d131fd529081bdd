import StackBackend.Closure.Receiver
import StackBackend.Proofs.Program.Building

/-! Programs that differ in the code of their functions only. Questions about scopes and
nesting have the same answers in both. -/

namespace StackBackend

namespace Program

/-- The second program has other bodies and chain calls, and is the same otherwise. -/
structure Recoded (p q : Program) : Prop where
  scopes : q.scopes = p.scopes
  definitions : q.definitions = p.definitions
  classes : q.classes = p.classes
  others : q.others = p.others
  size : q.functions.size = p.functions.size
  functions : ∀ {i : Nat} {f : FunctionDecl}, p.functions[i]? = some f →
    ∃ body chain, q.functions[i]? = some { f with body, chain }

namespace Recoded

variable {p q r : Program}

theorem refl (p : Program) : p.Recoded p :=
  ⟨rfl, rfl, rfl, rfl, rfl, fun {_ f} h => ⟨f.body, f.chain, h⟩⟩

theorem trans (h : p.Recoded q) (h' : q.Recoded r) : p.Recoded r where
  scopes := h'.scopes.trans h.scopes
  definitions := h'.definitions.trans h.definitions
  classes := h'.classes.trans h.classes
  others := h'.others.trans h.others
  size := h'.size.trans h.size
  functions hf := by
    obtain ⟨body, chain, hq⟩ := h.functions hf
    obtain ⟨body', chain', hr⟩ := h'.functions hq
    exact ⟨body', chain', hr⟩

theorem modify {f : FunctionId} {change : FunctionDecl → FunctionDecl}
    (hchange : ∀ decl, ∃ body chain, change decl = { decl with body, chain }) :
    p.Recoded { p with functions := p.functions.modify f.index change } where
  scopes := rfl
  definitions := rfl
  classes := rfl
  others := rfl
  size := Array.size_modify
  functions {i decl} hi := by
    rw [Array.getElem?_modify, hi]
    by_cases hf : f.index = i
    · obtain ⟨body, chain, heq⟩ := hchange decl
      exact ⟨body, chain, by rw [if_pos hf, Option.map_some, heq]⟩
    · exact ⟨decl.body, decl.chain, by rw [if_neg hf]⟩

section

variable (h : p.Recoded q)
include h

theorem symm : q.Recoded p where
  scopes := h.scopes.symm
  definitions := h.definitions.symm
  classes := h.classes.symm
  others := h.others.symm
  size := h.size.symm
  functions {i f} hf := by
    have hlt := lt_of_get hf
    rw [h.size] at hlt
    obtain ⟨f0, hf0⟩ := exists_of_lt hlt
    obtain ⟨body, chain, hq⟩ := h.functions hf0
    cases hf.symm.trans hq
    exact ⟨f0.body, f0.chain, hf0⟩

theorem keepsScopes : p.KeepsScopes q where
  kept {_ s} hs := ⟨s.names, by rw [h.scopes]; exact hs⟩

theorem changes : p.Changes Set.univ ∅ ∅ q where
  scopes := h.keepsScopes
  functions hf := by
    obtain ⟨body, chain, hq⟩ := h.functions hf
    exact ⟨_, hq, rfl, rfl, rfl, fun hn => absurd (Set.mem_univ _) hn⟩
  classes hc := ⟨_, by rw [h.classes]; exact hc, rfl, rfl, rfl, rfl, fun _ => rfl⟩
  defns hd := ⟨_, by rw [h.definitions]; exact hd, rfl, rfl, rfl, rfl, fun _ => rfl⟩
  others := h.others

theorem consistent (hp : p.Consistent) : q.Consistent := by
  refine .of_changes h.changes hp
    { scope := fun hs hi => absurd hi (not_new (by rw [h.scopes]) hs)
      defn := fun hd hi => absurd hi (not_new_nor (by rw [h.definitions]) hd)
      cls := fun hc hi => absurd hi (not_new (by rw [h.classes]) hc)
      function := fun {i f} hf _ => ?_ }
  obtain ⟨body, chain, hf0⟩ := h.symm.functions hf
  have hok := hp.function hf0
  refine FunctionOk.mono h.changes hok rfl rfl (fun hc => ?_) (fun d hd => ?_) hok.receiver
  · rw [h.classes]
    exact hok.owner hc
  · exact (hok.params d hd).mono h.changes nofun

theorem scopeAt {s : ScopeId} : q.scopeAt s = p.scopeAt s := by
  unfold Program.scopeAt
  rw [h.scopes]

theorem defnAt {d : DefnId} : q.defnAt d = p.defnAt d := by
  unfold Program.defnAt
  rw [h.definitions]

theorem classAt {c : ClassId} : q.classAt c = p.classAt c := by
  unfold Program.classAt
  rw [h.classes]

theorem activationWithin (n : Nat) : ∀ {s : ScopeId},
    q.activationWithin n s = p.activationWithin n s := by
  induction n with
  | zero => intro s; rfl
  | succ n ih =>
    intro s
    unfold Program.activationWithin
    simp only [h.scopeAt, ih]

theorem scopeFunction {s : ScopeId} : q.scopeFunction s = p.scopeFunction s := by
  unfold Program.scopeFunction Program.activationScope
  simp only [h.scopeAt, h.activationWithin, h.scopes]

theorem functionAt (f : FunctionId) :
    (∃ decl body chain, p.functionAt f = .ok decl ∧
      q.functionAt f = .ok { decl with body, chain }) ∨
    (p.functionAt f = .error (.dangling .functions f.index) ∧
      q.functionAt f = .error (.dangling .functions f.index)) := by
  unfold Program.functionAt entryAt
  cases hf : p.functions[f.index]? with
  | some decl =>
    obtain ⟨body, chain, hq⟩ := h.functions hf
    exact .inl ⟨decl, body, chain, rfl, by rw [hq]⟩
  | none =>
    have hnone : q.functions[f.index]? = none := by
      rw [Array.getElem?_eq_none_iff, h.size]
      exact Array.getElem?_eq_none_iff.mp hf
    exact .inr ⟨rfl, by rw [hnone]⟩

theorem declaringScope {f : FunctionId} : q.declaringScope f = p.declaringScope f := by
  unfold Program.declaringScope
  rcases h.functionAt f with ⟨decl, body, chain, hp, hq⟩ | ⟨hp, hq⟩
  · rw [hp, hq]
    change (q.scopeAt decl.scope >>= _) = (p.scopeAt decl.scope >>= _)
    rw [h.scopeAt]
  · rw [hp, hq]
    rfl

theorem enclosingFunction {f : FunctionId} : q.enclosingFunction f = p.enclosingFunction f := by
  unfold Program.enclosingFunction
  rw [h.declaringScope]
  simp only [h.scopeFunction]

theorem receiverWithin (n : Nat) : ∀ {f : FunctionId},
    q.receiverWithin n f = p.receiverWithin n f := by
  induction n with
  | zero => intro f; rfl
  | succ n ih =>
    intro f
    unfold Program.receiverWithin
    simp only [h.enclosingFunction, ih]
    rcases h.functionAt f with ⟨decl, body, chain, hp, hq⟩ | ⟨hp, hq⟩
    · rw [hp, hq]
      rfl
    · rw [hp, hq]

theorem receiverInScope {f : FunctionId} : q.receiverInScope f = p.receiverInScope f := by
  unfold Program.receiverInScope
  rw [h.receiverWithin, h.size]

theorem isField {d : DefnId} : q.isField d = p.isField d := by
  unfold Program.isField
  rw [h.definitions]

end

end Recoded

/-! ## One function after the other -/

section

variable {p q r : Program} {R : FunctionId → FunctionDecl → FunctionDecl → Prop}

structure RecodesAll (p : Program) (R : FunctionId → FunctionDecl → FunctionDecl → Prop)
    (q : Program) : Prop where
  recoded : p.Recoded q
  function : ∀ {i : Nat} {decl : FunctionDecl}, p.functions[i]? = some decl →
    ∃ decl', q.functions[i]? = some decl' ∧ R ⟨i⟩ decl decl'

def RecodesOne (R : FunctionId → FunctionDecl → FunctionDecl → Prop) (f : FunctionId)
    (decl : FunctionDecl) (r r' : Program) : Prop :=
  ∃ body chain, R f decl { decl with body, chain } ∧
    r' = { r with functions := r.functions.modify f.index fun _ => { decl with body, chain } }

structure RecodedUpTo (p : Program) (R : FunctionId → FunctionDecl → FunctionDecl → Prop)
    (done : List Nat) (r : Program) : Prop where
  recoded : p.Recoded r
  rest : ∀ {i : Nat} {decl : FunctionDecl}, p.functions[i]? = some decl → i ∉ done →
    r.functions[i]? = some decl
  function : ∀ {i : Nat} {decl : FunctionDecl}, p.functions[i]? = some decl → i ∈ done →
    ∃ decl', r.functions[i]? = some decl' ∧ R ⟨i⟩ decl decl'

theorem recodedUpTo_nil : p.RecodedUpTo R [] p :=
  ⟨.refl p, fun h _ => h, fun _ h => absurd h List.not_mem_nil⟩

theorem RecodedUpTo.step {done : List Nat} {r' : Program} {f : Nat} {decl : FunctionDecl}
    (h : p.RecodedUpTo R done r) (hdecl : p.functions[f]? = some decl) (hnew : f ∉ done)
    (hstep : RecodesOne R ⟨f⟩ decl r r') : p.RecodedUpTo R (done ++ [f]) r' := by
  have hdecl' := h.rest hdecl hnew
  obtain ⟨body, chain, hR, rfl⟩ := hstep
  have hget : ∀ i, (r.functions.modify f fun _ => { decl with body, chain })[i]? =
      if f = i then some { decl with body, chain } else r.functions[i]? := by
    intro i
    rw [Array.getElem?_modify]
    by_cases hi : f = i
    · rw [if_pos hi, if_pos hi, ← hi, hdecl', Option.map_some]
    · rw [if_neg hi, if_neg hi]
  refine ⟨?_, fun {i g} hg hi => ?_, fun {i g} hg hi => ?_⟩
  · have hmodify := modify_const (f := fun g : FunctionDecl => { g with body, chain }) hdecl'
    rw [← hmodify]
    exact h.recoded.trans (.modify (f := ⟨f⟩) fun g => ⟨body, chain, rfl⟩)
  · rw [List.mem_append, List.mem_singleton, not_or] at hi
    rw [hget, if_neg (Ne.symm hi.2)]
    exact h.rest hg hi.1
  · by_cases hi' : f = i
    · subst hi'
      cases hdecl.symm.trans hg
      exact ⟨{ decl with body, chain }, by rw [hget, if_pos rfl], hR⟩
    · rw [hget, if_neg hi']
      refine h.function hg ?_
      simpa [Ne.symm hi'] using hi

theorem next_of_range {n f : Nat} {pre post : List Nat} (h : List.range n = pre ++ f :: post) :
    f < n ∧ f ∉ pre :=
  ⟨List.mem_range.mp (h ▸ List.mem_append_right pre (.head _)),
    notMem_of_nodup (h ▸ List.nodup_range)⟩

theorem RecodedUpTo.all (h : p.RecodedUpTo R ([] ++ List.range p.functions.size) q) :
    p.RecodesAll R q :=
  ⟨h.recoded, fun hdecl => h.function hdecl (List.mem_range.mpr (lt_of_get hdecl))⟩

theorem recodesAll_of_gives {step : FunctionId → Pass Unit}
    (h : ((List.range p.functions.size).forM fun i => step ⟨i⟩).Gives p () q)
    (hstep : ∀ {f : FunctionId} {decl : FunctionDecl} {r r' : Program}, p.Recoded r →
      r.functions[f.index]? = some decl → (step f).Gives r () r' → RecodesOne R f decl r r') :
    p.RecodesAll R q := by
  refine RecodedUpTo.all (Pass.Gives.forM (I := p.RecodedUpTo R) _ [] h recodedUpTo_nil ?_)
  intro pre f post r r' hsplit hr hgives
  obtain ⟨hf, hnew⟩ := next_of_range hsplit
  obtain ⟨decl, hdecl⟩ := exists_of_lt hf
  exact hr.step hdecl hnew (hstep hr.recoded (hr.rest hdecl hnew) hgives)

theorem recodesAll_ensures {step : FunctionId → Pass Unit}
    (hstep : ∀ {f : FunctionId} {decl : FunctionDecl} {r : Program}, p.Recoded r →
      p.functions[f.index]? = some decl → r.functions[f.index]? = some decl →
        (step f).Ensures r fun _ => RecodesOne R f decl r) :
    ((List.range p.functions.size).forM fun i => step ⟨i⟩).Ensures p fun _ => p.RecodesAll R := by
  refine .mono (Pass.Ensures.forM (I := p.RecodedUpTo R) _ [] recodedUpTo_nil ?_) fun _ _ h => h.all
  intro pre f post r hsplit hr
  obtain ⟨hf, hnew⟩ := next_of_range hsplit
  obtain ⟨decl, hdecl⟩ := exists_of_lt hf
  exact (hstep (f := ⟨f⟩) hr.recoded hdecl (hr.rest hdecl hnew)).mono fun _ _ h => hr.step hdecl hnew h

end

end Program

end StackBackend
