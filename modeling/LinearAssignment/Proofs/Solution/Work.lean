import LinearAssignment.Proofs.Problem.Exact
import LinearAssignment.Proofs.Run.Work
import LinearAssignment.Solution

/-! The work of a solution, read off its counters. Only the smaller side of the table counts: with
`k` rows in the standard form there are `k` phases, which scan `k (k + 1) / 2` columns at most, and
no more steps than columns. -/
namespace LinearAssignment

structure Solution.WorkBounded [Scalar α] (solution : Solution α rows cols) : Prop where
  phases_eq : solution.tally.phases = min rows cols
  scans : ∀ root, Run.ScansWithin solution.problem.costs root
  scanned_ge : min rows cols ≤ solution.tally.columnsScanned
  scanned_le : solution.tally.columnsScanned ≤ min rows cols * (min rows cols + 1) / 2
  updates_le : solution.tally.dualUpdates ≤ solution.tally.columnsScanned
  first : 0 < min rows cols → ∃ run,
    Run.phases solution.problem.costs 1 (Run.start solution.problem.costs) = .ok run ∧
      run.tally.phases = 1 ∧ run.tally.dualUpdates = 0
  updates_lt : 0 < min rows cols → solution.tally.dualUpdates < solution.tally.columnsScanned

variable [Field K] [LinearOrder K] [IsStrictOrderedRing K]

/-- In exact arithmetic the counters of every solved problem keep to their bounds. -/
theorem Problem.exists_workBounded (problem : Problem (Exact K) rows cols) :
    ∃ solution, problem.solve = .ok solution ∧ solution.problem = problem ∧
      solution.WorkBounded := by
  have hslack := Run.slacksBelowInfinity_exact problem.cost min_le_max
  obtain ⟨run, hrun, hprogress, hspared⟩ :=
    Run.exists_spared problem.cost min_le_max (le_refl (min rows cols))
  have hfirst (hpos : 0 < min rows cols) := Run.exists_spared problem.cost min_le_max hpos
  rw [← problem.costs_eq_exact] at hslack hrun hfirst
  refine ⟨⟨problem, run⟩, solve_eq_ok hrun, rfl, ?_⟩
  exact
    { phases_eq := hprogress.phases_eq
      scans := hslack.scansWithin min_le_max
      scanned_ge := hspared.scanned_ge
      scanned_le := by
        rw [Nat.le_div_iff_mul_le Nat.two_pos, Nat.mul_comm]
        exact hspared.scanned_le
      updates_le := hspared.updates_le
      first := fun hpos => by
        obtain ⟨run, hrun, hprogress, hspared⟩ := hfirst hpos
        exact ⟨run, hrun, hprogress.phases_eq, hspared.updates_eq_zero⟩
      updates_lt := hspared.updates_lt }

theorem Problem.exists_workBounded_two_by_five :
    let problem : Problem (Exact ℚ) 2 5 :=
      ⟨Grid.exact ![![1, 9, 9, 9, 9], ![2, 7, 7, 8, 8]], .minimize, fun i j => by simp,
        fun gate hgate => by cases hgate⟩
    ∃ solution, problem.solve = .ok solution ∧ solution.problem = problem ∧
      solution.WorkBounded := by
  intro problem
  exact problem.exists_workBounded

/-- Rows that all prefer the columns in the same order make the second phase look at both of them,
and no phase looks at any column to the right. -/
example :
    let problem : Problem (Exact ℚ) 2 5 :=
      ⟨Grid.exact ![![1, 9, 9, 9, 9], ![2, 7, 7, 8, 8]], .minimize, fun i j => by simp,
        fun gate hgate => by cases hgate⟩
    (problem.solve.toOption.map Solution.tally) = some ⟨2, 1, 3⟩ := by
  decide +kernel

end LinearAssignment
