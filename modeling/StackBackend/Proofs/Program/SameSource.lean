import StackBackend.Program.Hierarchy
import StackBackend.Proofs.Program.Changes

/-! Programs that differ only in what code generation adds: the code of functions and the
string pool. Everything else that is asked of them has the same answer. -/

namespace StackBackend

def FunctionDecl.source (f : FunctionDecl) : FunctionDecl := { f with lowered := none }

theorem FunctionDecl.source_eq {f g : FunctionDecl} (h : g.source = f.source) :
    g = { f with lowered := g.lowered } := by
  obtain ⟨_, _, _, _, _, _, _, _, _, _, _, _⟩ := f
  obtain ⟨_, _, _, _, _, _, _, _, _, _, _, _⟩ := g
  cases h
  rfl

namespace Program

/-- The program without generated code. -/
def source (p : Program) : Program :=
  { p with functions := p.functions.map FunctionDecl.source, strings := #[] }

variable {p q : Program} {i : Nat} {f : FunctionId} {decl : FunctionDecl}

theorem source_functions (h : q.source = p.source) :
    q.functions[i]?.map FunctionDecl.source = p.functions[i]?.map FunctionDecl.source := by
  have hmap : q.functions.map FunctionDecl.source = p.functions.map FunctionDecl.source :=
    congrArg Program.functions h
  rw [← Array.getElem?_map, hmap, Array.getElem?_map]

section

variable (h : q.source = p.source)
include h

theorem source_function (hdecl : p.functions[i]? = some decl) :
    ∃ lowered, q.functions[i]? = some { decl with lowered } := by
  have hmap := @source_functions p q i h
  rw [hdecl] at hmap
  obtain ⟨decl', hdecl', hsource⟩ := Option.map_eq_some_iff.mp hmap
  exact ⟨decl'.lowered, hdecl'.trans (congrArg some (FunctionDecl.source_eq hsource))⟩

theorem source_scopes : q.scopes = p.scopes := by
  change q.source.scopes = p.source.scopes
  rw [h]

theorem source_definitions : q.definitions = p.definitions := by
  change q.source.definitions = p.source.definitions
  rw [h]

theorem source_classes : q.classes = p.classes := by
  change q.source.classes = p.source.classes
  rw [h]

theorem source_defnAt (d : DefnId) : q.defnAt d = p.defnAt d := by
  unfold defnAt
  rw [source_definitions h]

theorem source_classAt (c : ClassId) : q.classAt c = p.classAt c := by
  unfold classAt
  rw [source_classes h]

theorem source_functionAt (f : FunctionId) :
    (∃ e, p.functionAt f = .error e ∧ q.functionAt f = .error e) ∨
      ∃ decl lowered, p.functionAt f = .ok decl ∧ q.functionAt f = .ok { decl with lowered } := by
  cases hdecl : p.functions[f.index]? with
  | some decl =>
    obtain ⟨lowered, hdecl'⟩ := source_function h hdecl
    exact .inr ⟨decl, lowered, functionAt_eq hdecl, functionAt_eq hdecl'⟩
  | none =>
    have hmap := @source_functions p q f.index h
    rw [hdecl] at hmap
    refine .inl ⟨.dangling .functions f.index, ?_, ?_⟩
    · rw [functionAt, entryAt, hdecl]
    · rw [functionAt, entryAt, Option.map_eq_none_iff.mp hmap]

theorem bind_source_functionAt {α : Type} {k k' : FunctionDecl → Checked α}
    (hk : ∀ decl lowered, k' { decl with lowered } = k decl) :
    (q.functionAt f >>= k') = (p.functionAt f >>= k) := by
  rcases source_functionAt h f with ⟨e, hp, hq⟩ | ⟨decl, lowered, hp, hq⟩
  · rw [hp, hq]
    rfl
  · rw [hp, hq]
    exact hk decl lowered

theorem source_instantiateWithin (target : ClassId) (steps : Nat) :
    ∀ ty, q.instantiateWithin target steps ty = p.instantiateWithin target steps ty := by
  induction steps with
  | zero => intro ty; rfl
  | succ steps ih =>
    intro ty
    simp only [instantiateWithin, source_classAt h, ih]

theorem source_instantiateSupertype (ty : ClassTy) (owner : ClassId) :
    q.instantiateSupertype ty owner = p.instantiateSupertype ty owner := by
  unfold instantiateSupertype
  rw [source_classes h]
  exact source_instantiateWithin h ..

end

end Program

end StackBackend
