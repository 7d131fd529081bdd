import StackBackend.Proofs.Lowering.NeatCode

/-! Every expression is lowered neatly, whatever encloses it, and so is the entry of a
function. The entry ends its last block, so when it is done no label is owed and no
block is open. -/

namespace StackBackend.Neat

open Lower

theorem lowerEntry (site : Site) : Neat site.lowerEntry :=
  composes.lowerEntry Discipline.flat_free (x := ()) (y := ()) trivial (.all site .free (fun _ => True) fun _ _ _ _ => trivial)
    (fun _ _ _ _ => trivial) rfl none

/-- The entry does not stop before its last block has been ended. -/
theorem lowerEntry_current {site : Site} {s t : LowerState} {v : Unit}
    (h : site.lowerEntry.Gives s v t) : t.draft.current = none := by
  have hlast : ∀ {m : Lower Unit} {s t : LowerState} {v : Unit},
      (m >>= fun _ => Lower.terminate .ret).Gives s v t → t.draft.current = none := by
    intro m s t v h
    obtain ⟨_, u, _, h⟩ := gives_bind.mp h
    rw [gives_terminate.mp h]
    exact Draft.current_terminate _ _
  unfold Site.lowerEntry at h
  split at h
  · obtain ⟨_, u, _, h⟩ := gives_bind.mp h
    split at h
    · obtain ⟨_, _, _, h⟩ := gives_bind.mp h
      exact hlast h
    · exact hlast h
  · exact (Site.not_gives_fail h).elim
  · obtain ⟨_, _, _, h⟩ := gives_bind.mp h
    exact hlast h

end StackBackend.Neat
