import StackBackend.Proofs.Closure.WellScoped

/-! Chain calls through closure conversion. A chain call keeps its arguments, with receivers
made explicit, until functions are converted; records bring no arguments of their own. What a
converted argument names is then as for bodies. -/

namespace StackBackend

namespace Program

variable {p p1 p2 q : Program} {u : Usage} {needed : RefMap .functions (RefSet .scopes)}
  {c : Captures} {plan : ClosurePlan} {f : FunctionId} {decl : FunctionDecl} {a : Atom}

def chainOf? (p : Program) (f : FunctionId) : Option Chain := p.functions[f.index]?.bind (·.chain)

def chainArgs (p : Program) (f : FunctionId) : List Expr :=
  ((p.chainOf? f).map (·.call.args)).getD []

theorem chainAtoms_eq_args : p.chainAtoms f = atomsOfArgs (p.chainArgs f) := by
  rw [chainAtoms, chainArgs, chainOf?]
  cases p.functions[f.index]?.bind (·.chain) <;> rfl

theorem chainArgs_eq (hdecl : p.functions[f.index]? = some decl) :
    p.chainArgs f = (decl.chain.map (·.call.args)).getD [] := by
  rw [chainArgs, chainOf?, hdecl]
  rfl

theorem chainArgs_of_unknown (hf : p.functions.size ≤ f.index) : p.chainArgs f = [] := by
  rw [chainArgs, chainOf?, Array.getElem?_eq_none_iff.mpr hf]
  rfl

theorem mem_atoms_of_chain (ha : a ∈ p.chainAtoms f) :
    ∃ decl, p.functions[f.index]? = some decl ∧ a ∈ decl.atoms := by
  obtain ⟨decl, _, hdecl, _⟩ := mem_chainAtoms.mp ha
  exact ⟨decl, hdecl, (mem_atoms hdecl).mpr (.inr ha)⟩

theorem Recorded.chainArgs (h : p1.Recorded c plan p2) (f : FunctionId) :
    p2.chainArgs f = p1.chainArgs f := by
  by_cases hf : f.index < p1.functions.size
  · obtain ⟨decl, hdecl⟩ := exists_of_lt hf
    obtain ⟨kind, typeParams, params, hdecl2⟩ := h.function hdecl
    rw [chainArgs_eq hdecl, chainArgs_eq hdecl2]
  · rw [chainArgs_of_unknown (Nat.le_of_not_lt hf)]
    by_cases hf2 : f.index < p2.functions.size
    · obtain ⟨decl, hdecl⟩ := exists_of_lt hf2
      rw [chainArgs_eq hdecl]
      cases h.functions hdecl (Nat.le_of_not_lt hf) with
      | constructor _ hchain | forwarder _ hchain => rw [hchain]; rfl
    · exact chainArgs_of_unknown (Nat.le_of_not_lt hf2)

namespace Conversion

variable (h : p.Conversion p1 u needed c plan p2 q)
include h

theorem chainArgs (f : FunctionId) :
    p2.ConvertsArgs plan f true (p1.chainArgs f) (q.chainArgs f) := by
  rw [← h.recorded.chainArgs f]
  by_cases hf : f.index < p2.functions.size
  · obtain ⟨decl, hdecl⟩ := exists_of_lt hf
    obtain ⟨decl', hdecl', hconverts⟩ := h.converted.function hdecl
    rw [chainArgs_eq hdecl, chainArgs_eq hdecl']
    have hchains := hconverts.chain
    generalize decl.chain = chain, decl'.chain = chain' at hchains ⊢
    cases hchains with
    | none => exact .nil
    | @some chain _ hchains =>
      obtain ⟨args, hargs, rfl⟩ := hchains
      obtain ⟨call, fieldParams⟩ := chain
      cases call with
      | implicit => exact .nil
      | super | sibling => exact hargs
  · have hle := Nat.le_of_not_lt hf
    rw [chainArgs_of_unknown hle, chainArgs_of_unknown (h.converted.recoded.size ▸ hle)]
    exact .nil

theorem settled_chain (hp : p.Consistent) (hknown : p.NamesKnown)
    (hown : p1.OwnClauses f (p1.chainAtoms f)) (ha : a ∈ q.chainAtoms f) :
    p2.Settled plan f (p1.chainAtoms f) a := by
  rw [chainAtoms_eq_args] at ha
  obtain ⟨n, hn, ha⟩ := List.mem_flatMap.mp ha
  have hafter := (converts_nodes p2 plan f true (nodesOfArgs (p1.chainArgs f))).args _
    (fun _ hm => hm) _ (h.chainArgs f) n hn
  have hbefore : ∀ m ∈ nodesOfArgs (p1.chainArgs f), ∀ b ∈ m.atoms,
      p1.NamedBefore c p2 globalScope (p1.chainAtoms f) b := by
    refine fun m hm b hb => .code ?_
    rw [chainAtoms_eq_args]
    exact List.mem_flatMap.mpr ⟨m, hm, hb⟩
  refine settled_of_nodeAfter hp h (fun b hb => mem_atoms_of_chain hb) (fun d hd => ?_) hown hbefore
    hafter ha
  rcases h.resolved.named_chain hd with ⟨hmem, _⟩ | ⟨_, _, hvariable, _⟩
  · obtain ⟨decl, hdecl, hmem⟩ := mem_atoms_of_chain hmem
    rw [h.resolved.recoded.definitions]
    exact (hknown hdecl _ hmem).2 d rfl
  · cases hvariable

end Conversion

end Program

end StackBackend
