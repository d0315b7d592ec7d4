import LinearAssignment.Proofs.Run.Consistent

/-! What can go wrong in a run, whatever its numbers are. Every search finds a free column, and
every parent is a row, be it from this search or from an earlier one. So all that is left is a path
that never comes to a free row. -/
namespace LinearAssignment

def Workspace.Anchored (workspace : Workspace α m n) : Prop :=
  0 < m → ∀ j, workspace.parent j < m

theorem Search.anchored_enter {search : Search α m n} (h : search.Anchored) (row : Fin m) :
    (search.enter row).Anchored := h

theorem Matching.fault_of_flip {parent : Array Nat} {current : Matching m n}
    (hparent : ∀ j : Fin n, ∃ row : Fin m, parent[j.val]? = some row.val)
    (hflip : flip parent steps col current = .error fault) : fault = .cyclicPath := by
  induction steps generalizing col current with
  | zero =>
    cases hflip
    rfl
  | succ steps ih =>
    obtain ⟨row, hrow⟩ := hparent col
    simp only [flip, parentRow_eq_ok.mpr hrow] at hflip
    cases hcolumn : current.columnOf row with
    | none =>
      rw [hcolumn] at hflip
      cases hflip
    | some released =>
      rw [hcolumn] at hflip
      exact ih hflip

variable [Scalar α] {costs : Grid α m n}

namespace Search

theorem anchored_of_advance {search next : Search α m n} (h : search.Anchored)
    (hnext : search.advance costs row = some (col, next)) : next.Anchored := by
  intro hpos j
  rw [parent_of_advance hnext, parent_relax]
  split
  · exact row.isLt
  · exact h hpos j

theorem anchored_of_run {matching : Matching m n} {workspace : Workspace α m n}
    {potentials : Potentials α m n} {root : Fin m} {last : Search α m n}
    (h : workspace.Anchored)
    (hrun : run costs matching workspace potentials root = .ok (col, last)) : last.Anchored := by
  have hstart : (start workspace potentials root).Anchored := h
  obtain ⟨row, search, hanchored, hlast, -⟩ := grow_last (fun _ search => search.Anchored)
    (fun _ _ _ _ owner h hnext _ => anchored_enter (anchored_of_advance h hnext) owner)
    hstart hrun
  exact anchored_of_advance hanchored hlast

end Search

namespace Run

structure Steady (run : Run α m n) : Prop where
  consistent : run.matching.Consistent
  anchored : run.workspace.Anchored

theorem steady_start (costs : Grid α m n) : Steady (start costs) where
  consistent := Matching.consistent_empty m n
  anchored := fun hpos j => by simpa [start, Workspace.fresh, Workspace.parent] using hpos

namespace Steady

variable {run next : Run α m n}

theorem advance (h : Steady run) (hnext : run.advance costs = .ok next) : Steady next := by
  refine ⟨consistent_of_advance h.consistent hnext, ?_⟩
  rw [Run.advance] at hnext
  split at hnext
  · cases hnext
    exact h.anchored
  · obtain ⟨col, search, matching, hsearch, -, rfl⟩ := phase_eq_ok.mp hnext
    exact Search.anchored_of_run h.anchored hsearch

theorem fault_of_phase (h : Steady run) (hmn : m ≤ n) {root : Fin m}
    (hroot : run.matching.columnOf root = none) (hphase : run.phase costs root = .error fault) :
    fault = .cyclicPath := by
  obtain ⟨col, last, hsearch⟩ : ∃ col last, Search.run costs run.matching run.workspace
      run.potentials root = .ok (col, last) :=
    Search.run_ok h.consistent hroot hmn run.workspace run.potentials
  obtain ⟨-, -, -, -, hfree⟩ := Search.exists_last_round hsearch
  have hparent (j : Fin n) : ∃ row : Fin m, last.parents.toArray[j.val]? = some row.val := by
    have hlt := Search.anchored_of_run h.anchored hsearch root.pos j
    exact ⟨⟨_, hlt⟩, by simp [Workspace.parent, Vector.get]⟩
  have haugment := Matching.augment_val run.matching last.parents.toArray hroot hfree
  cases hflip : run.matching.flip last.parents.toArray m col with
  | ok flipped =>
    simp [phase, hsearch, haugment, hflip, bind, Except.bind, Except.map, pure, Except.pure]
      at hphase
  | error found =>
    obtain rfl := Matching.fault_of_flip hparent hflip
    simpa [phase, hsearch, haugment, hflip, bind, Except.bind, Except.map, eq_comm] using hphase

theorem fault_of_advance (h : Steady run) (hmn : m ≤ n)
    (hadvance : run.advance costs = .error fault) : fault = .cyclicPath := by
  rw [Run.advance] at hadvance
  split at hadvance
  · cases hadvance
  · rename_i root hroot
    have hfree := (Matching.head_freeRows_eq_some.mp hroot).1
    exact h.fault_of_phase hmn hfree hadvance

/-- However many phases there are, the only fault is a path that leads round in a circle. -/
theorem fault_of_phases (h : Steady run) (hmn : m ≤ n)
    (hphases : phases costs count run = .error fault) : fault = .cyclicPath := by
  induction count generalizing run with
  | zero => cases hphases
  | succ count ih =>
    rw [phases_succ] at hphases
    cases hnext : run.advance costs with
    | error found =>
      rw [hnext] at hphases
      cases hphases
      exact h.fault_of_advance hmn hnext
    | ok next =>
      rw [hnext] at hphases
      exact ih (h.advance hnext) hphases

end Steady

end Run
end LinearAssignment
