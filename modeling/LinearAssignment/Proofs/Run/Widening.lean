import LinearAssignment.Proofs.Run.Certified
import LinearAssignment.Proofs.Run.Embedding
import LinearAssignment.Proofs.Search.Widening

/-! A run of a wider table, whose far columns are of no use. Every phase ends at the same near
column, so the run is the narrow one: it gives the near columns the same potentials, leaves the far
ones free, and counts and tells the same. -/
namespace LinearAssignment.Run

/-- The runs agree, and the far columns are free and have the potential zero. -/
structure Widened [Scalar α] (run : Run α m n) (other : Run α m (n + k)) : Prop where
  potentials_eq : other.potentials = run.potentials.widen k
  matching_eq : other.matching = run.matching.widen k
  tally_eq : other.tally = run.tally
  trace_eq : other.trace = run.trace
  parent_eq : ∀ j, other.workspace.parent (j.castAdd k) = run.workspace.parent j

variable [Field K] [LinearOrder K] {cost : Fin m → Fin n → K} {wide : Fin m → Fin (n + k) → K}

theorem widened_start (hwide : Widens cost wide) (hmn : m ≤ n) :
    Widened (start (Grid.exact cost)) (start (Grid.exact wide)) where
  potentials_eq := (Potentials.initial_widen hwide hmn).symm
  matching_eq := (Matching.empty_widen k).symm
  tally_eq := rfl
  trace_eq := rfl
  parent_eq j := by simp [start, Workspace.fresh, Workspace.parent]

theorem Certified.col_eq_zero {run : Run (Exact K) m n} (h : Certified cost run)
    (hfree : run.matching.rowOf j = none) : run.potentials.col j = 0 := by
  obtain ⟨u, v, hpotentials, hcert⟩ := h
  rw [hpotentials, Potentials.col_exact, hcert.free j hfree]
  rfl

variable [IsStrictOrderedRing K] {run next : Run (Exact K) m n}
  {other : Run (Exact K) m (n + k)}

theorem Widened.phase (h : Widened run other) (hwide : Widens cost wide)
    (hcertified : Certified cost run) {root : Fin m}
    (hphase : run.phase (Grid.exact cost) root = .ok next) :
    ∃ next', other.phase (Grid.exact wide) root = .ok next' ∧ Widened next next' := by
  obtain ⟨col, search, matching, hsearch, haugment, rfl⟩ := phase_eq_ok.mp hphase
  obtain ⟨search', hsearch', hwidened⟩ :=
    Search.run_widened hwide h.parent_eq (fun _ => hcertified.col_eq_zero) hsearch
  have haugment' := Matching.augment_widen hwidened.parent_eq haugment
  rw [← h.matching_eq, ← h.potentials_eq] at hsearch'
  rw [← h.matching_eq] at haugment'
  refine ⟨_, phase_eq_ok.mpr ⟨_, _, _, hsearch', haugment', rfl⟩, ?_⟩
  constructor
  case potentials_eq => exact hwidened.potentials_eq
  case matching_eq => rfl
  case tally_eq => rw [h.tally_eq, phaseTally, phaseTally, hwidened.tally_eq]
  case trace_eq =>
    rw [h.trace_eq, phaseTrace, phaseTrace, hwidened.trace_eq, hwidened.rows_eq]
    rfl
  case parent_eq => exact hwidened.parent_eq

theorem Widened.advance (h : Widened run other) (hwide : Widens cost wide)
    (hcertified : Certified cost run) (hnext : run.advance (Grid.exact cost) = .ok next) :
    ∃ next', other.advance (Grid.exact wide) = .ok next' ∧ Widened next next' := by
  rw [Run.advance] at hnext
  rw [Run.advance, h.matching_eq, Matching.freeRows_widen]
  cases hroot : run.matching.freeRows.head? with
  | none =>
    rw [hroot] at hnext
    cases hnext
    exact ⟨other, rfl, h⟩
  | some root =>
    rw [hroot] at hnext
    exact h.phase hwide hcertified hnext

theorem exists_phases_widened (hwide : Widens cost wide) (hmn : m ≤ n) (hcount : count ≤ m) :
    ∃ run other, phases (Grid.exact cost) count (start (Grid.exact cost)) = .ok run ∧
      phases (Grid.exact wide) count (start (Grid.exact wide)) = .ok other ∧
        Widened run other := by
  let inv : Nat → Run (Exact K) m n → Prop := fun count run => Certified cost run ∧
    ∃ other, phases (Grid.exact wide) count (start (Grid.exact wide)) = .ok other ∧
      Widened run other
  have hstart : inv 0 (start (Grid.exact cost)) :=
    ⟨certificate_initial cost hmn, _, rfl, widened_start hwide hmn⟩
  have hafter : ∀ count run, ∀ hlt : count < m, ∀ col search path, Progress count run →
      inv count run → Phase (Grid.exact cost) run ⟨count, hlt⟩ col search path →
        inv (count + 1) (run.after ⟨count, hlt⟩ col search path) := by
    rintro count run hlt col search path hprogress ⟨hcertified, other, hother, hwidened⟩ hphase
    obtain ⟨next, hnext, hwidened'⟩ :=
      hwidened.advance hwide hcertified (hprogress.advance_eq hlt hphase)
    exact ⟨hcertified.after hprogress.consistent hphase, next,
      phases_succ_of_ok hother hnext, hwidened'⟩
  obtain ⟨run, hrun, -, -, other, hother, hwidened⟩ := exists_phases inv hmn hstart
    (fun _ _ _ _ _ hinv => hinv.1.slack_lt_infinity _) hafter hcount
  exact ⟨run, other, hrun, hother, hwidened⟩

end LinearAssignment.Run
