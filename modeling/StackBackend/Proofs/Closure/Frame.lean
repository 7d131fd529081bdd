import StackBackend.Proofs.Closure.Confined

/-! What closure conversion leaves as it was. Entries keep their places, and only captured
variables, which become fields, and closures, which become methods, change beyond their code.
The classes that are new are the records, one for each scope, closure and function value. -/

namespace StackBackend

open List

namespace Program

variable {p p₁ p₂ q : Program} {u : Usage} {needed : RefMap .functions (RefSet .scopes)}
  {c : Captures}

/-- The second program is the first one with what was captured moved into records. -/
structure Framed (p : Program) (c : Captures) (q : Program) : Prop where
  scopes : p.KeepsScopes q
  classes : ∀ {i : Nat} {cls : ClassDecl}, p.classes[i]? = some cls → q.classes[i]? = some cls
  others : q.others = p.others
  kept : ∀ {i : Nat} {defn : Definition}, p.definitions[i]? = some defn →
    (defn.kind ≠ .parameter → ¬ c.captured.Holds defn.scope (.variable ⟨i⟩)) →
    q.definitions[i]? = some defn
  moved : ∀ {i : Nat} {defn : Definition}, p.definitions[i]? = some defn → defn.kind ≠ .parameter →
    c.captured.Holds defn.scope (.variable ⟨i⟩) → ∃ k scope,
      q.definitions[i]? = some { defn with kind := .field k, scope } ∧
      p.MadeFor q k (.context defn.scope)
  functions : ∀ {i : Nat} {f : FunctionDecl}, p.functions[i]? = some f → ⟨i⟩ ∉ c.closures.toList →
    ∃ body chain, q.functions[i]? = some { f with body, chain }
  /-- As many type parameters are removed as there are around the function. -/
  closures : ∀ {i : Nat} {f : FunctionDecl}, p.functions[i]? = some f → ⟨i⟩ ∈ c.closures.toList →
    ∃ body chain k receiver parent inherited, q.functions[i]? = some { f with
        body, chain
        kind := .method k
        params := receiver :: f.params
        typeParams := f.typeParams.drop inherited.length } ∧
      p.MadeFor q k (.closure ⟨i⟩) ∧ p.enclosingFunction ⟨i⟩ = .ok (some parent) ∧
      p.scopeTypeParams parent = .ok inherited
  records : ((q.classes.toList.drop p.classes.size).map ClassDecl.origin).Perm c.origins
  distinct : c.origins.Nodup
  /-- A nested function without a body counts as one at the top level. -/
  values : ∀ {f}, f ∈ c.values.toList ↔ (∃ g, .value f ∈ p.bodyAtoms g) ∧
    (∃ decl, p.functions[f.index]? = some decl ∧ decl.kind = .global) ∧
    ¬ ((p.bodyOf? f).isSome = true ∧ ∃ g, p.enclosingFunction f = .ok (some g))

theorem CapturesOf.mem_values (hc : p.CapturesOf u needed c) {f : FunctionId} :
    f ∈ c.values.toList ↔ (∃ g, .value f ∈ p.bodyAtoms g) ∧ p.IsTopLevel u f := by
  constructor
  · intro hf
    exact ⟨hc.used f hf, hc.topLevel f hf⟩
  · rintro ⟨⟨g, hg⟩, htop⟩
    have hvalue := hc.values hg
    rw [if_neg (by simp [RefMap.contains, htop.1])] at hvalue
    exact hvalue.mpr htop

end Program

namespace Pass

open Program

/-- Closure conversion changes nothing but the code, what is captured and the closures, and the
classes that it adds are one for each scope, closure and function value. -/
theorem convertClosures_framed {p q : Program} (hp : Constructed p)
    (h : convertClosures.Gives p () q) :
    ∃ p₁ c, resolveReceivers.Gives p () p₁ ∧ p.Recoded p₁ ∧ p₁.captures = .ok c ∧
      p₁.Framed c q := by
  obtain ⟨p₁, u, needed, c, plan, p₂, hresolve, hc, _, hconversion⟩ :=
    convertClosures_gives hp.source.consistent h
  have hresolved := hconversion.resolved.recoded
  have hrecoded := hconversion.converted.recoded
  have hchanges := hconversion.recorded.builds.changes
  have hhome : ∀ {i : Nat} {defn : Definition} {s : ScopeId}, p₁.definitions[i]? = some defn →
      c.captured.Holds s (.variable ⟨i⟩) → defn.scope = s := by
    intro i defn s hdefn hd
    cases (hconversion.captures.holds s _).mp hd with
    | «variable» _ _ hhome _ =>
      obtain ⟨_, hdefn', hscope, _⟩ := hhome
      cases hdefn.symm.trans hdefn'
      exact hscope
  -- no class was a record before
  have hmade : ∀ {k : ClassId} {cls : ClassDecl} {o : ClassOrigin}, p₂.classes[k.index]? = some cls →
      cls.origin = o → o ≠ .declared → o ≠ .builtin → p₁.MadeFor q k o := by
    intro k cls o hcls horigin hdeclared hbuiltin
    refine ⟨Nat.le_of_not_lt fun hlt => ?_, cls, by rw [hrecoded.classes]; exact hcls, horigin⟩
    obtain ⟨cls', hcls'⟩ := exists_of_lt hlt
    cases hcls.symm.trans (hchanges.class_eq hcls' (Set.notMem_empty _))
    rw [hresolved.classes] at hcls'
    rcases hp.source.origin hcls' with h | h
    · exact hdeclared (horigin.symm.trans h)
    · exact hbuiltin (horigin.symm.trans h)
  refine ⟨p₁, c, hresolve, hresolved, hc, ?_⟩
  constructor
  case scopes => exact ⟨fun hs => by rw [hrecoded.scopes]; exact hchanges.scopes.kept hs⟩
  case classes =>
    intro i cls hcls
    rw [hrecoded.classes]
    exact hchanges.class_eq hcls (Set.notMem_empty _)
  case others => exact hrecoded.others.trans hchanges.others
  case kept =>
    intro i defn hdefn hfree
    rw [hrecoded.definitions]
    refine hchanges.defn_eq hdefn fun ⟨hparam, s, hheld⟩ => ?_
    exact hfree (fun hkind => hparam ⟨defn, hdefn, hkind⟩) (hhome hdefn hheld ▸ hheld)
  case moved =>
    intro i defn hdefn hkind hheld
    have hparam : ¬ p₁.IsParam ⟨i⟩ := by
      rintro ⟨defn', hdefn', hkind'⟩
      cases hdefn.symm.trans hdefn'
      exact hkind hkind'
    obtain ⟨_, _, s, hheld', defn₁, k, cls, hdefn₁, hfield, hcls, horigin⟩ :=
      hconversion.recorded.moved ⟨hparam, _, hheld⟩
    obtain ⟨_, hdefn₂, hid, hname, hty, hmutable, _⟩ := hchanges.defns hdefn
    cases hdefn₁.symm.trans hdefn₂
    cases hhome hdefn hheld'
    refine ⟨k, defn₁.scope, ?_, hmade hcls horigin nofun nofun⟩
    rw [hrecoded.definitions, hdefn₂, ← hfield, ← hid, ← hname, ← hty, ← hmutable]
  case functions =>
    intro i f hf hopen
    exact hrecoded.functions (hchanges.function_eq hf hopen)
  case closures =>
    intro i f hf hclosure
    obtain ⟨closure, hfound⟩ := hconversion.recorded.closures _ hclosure
    have hplanned := hconversion.recorded.planned.closures hfound
    obtain ⟨parent, inherited, hparent, hparams, hlength⟩ := hplanned.inherits
    obtain ⟨decl, k, cls, hdecl, hmethod, hcls, horigin⟩ := hplanned.method
    cases hf.symm.trans hdecl
    obtain ⟨body, chain, hfunction⟩ := hrecoded.functions hmethod
    rw [hlength] at hfunction
    refine ⟨body, chain, k, closure.receiver, parent, inherited, hfunction,
      hmade hcls horigin nofun nofun, ?_, hparams⟩
    rw [hconversion.captures.parents] at hparent
    exact (hconversion.captures.usage.parents.mp hparent).2
  case records =>
    rw [hrecoded.classes, map_drop]
    change (drop p₁.classes.size p₂.origins).Perm _
    rw [hconversion.recorded.origins, drop_left' (by simp [origins])]
  case distinct => exact hconversion.captures.origins_nodup
  case values =>
    intro f
    have hnested : u.parents.find? f = none ↔ ¬ ((p₁.bodyOf? f).isSome = true ∧
        ∃ g, p₁.enclosingFunction f = .ok (some g)) := by
      rw [Option.eq_none_iff_forall_ne_some]
      simp only [ne_eq, hconversion.captures.usage.parents, not_and, not_exists]
      exact forall_comm
    rw [hconversion.captures.mem_values, IsTopLevel, hnested, and_comm (a := ¬ _)]

theorem convertClosures_framed_sharing :
    Constructed .sharing ∧ ∃ q p₁ c, convertClosures.Gives .sharing () q ∧
      resolveReceivers.Gives .sharing () p₁ ∧ p₁.captures = .ok c ∧ p₁.Framed c q := by
  obtain ⟨p₁, c, hresolve, _, hc, hframed⟩ :=
    convertClosures_framed sharing_constructed sharing_converts
  exact ⟨sharing_constructed, _, p₁, c, sharing_converts, hresolve, hc, hframed⟩

end Pass

/-! A closure that does not list the type parameter of the function around it, because it was
there first: `f<T>() { var x; fun g<U> = x }`. -/

def Program.displacing : Program :=
  .built [
    .function "f" .unit, .localVar ⟨10⟩ "x" .i64 true, .nestedFunction ⟨10⟩ "g" .i64,
    .functionTypeParam ⟨10⟩ "T", .functionTypeParam ⟨11⟩ "U",
    .body ⟨11⟩ (.variable .i64 ⟨14⟩), .body ⟨10⟩ (.mkBlock [.declare ⟨14⟩ none, .function ⟨11⟩])]

/-- It loses its own. -/
theorem own_type_parameter_removed : Constructed .displacing ∧
    Program.displacing.scopeTypeParams ⟨10⟩ = .ok [⟨0⟩] ∧
    Program.displacing.functions[11]?.map FunctionDecl.typeParams = some [⟨1⟩] ∧
    ∃ q, Pass.convertClosures.Gives .displacing () q ∧
      q.functions[11]?.map FunctionDecl.typeParams = some [] := by
  have hview : Pass.convertClosures.view? (·.functions[11]?.map FunctionDecl.typeParams)
      Program.displacing = some (some []) := by cbv
  obtain ⟨hgives, hparams⟩ := Pass.gives_of_view _ _ hview
  exact ⟨.built (by decide +kernel), Checked.eq_ok_of_toOption (by decide +kernel),
    by decide +kernel, _, hgives, hparams⟩

end StackBackend
