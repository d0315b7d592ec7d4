import LinearAssignment.Proofs.Problem.Exact
import LinearAssignment.Proofs.Run.Certified
import LinearAssignment.Proofs.Solution.Reported

/-! What a solution is like before anything is asked of its numbers. Rounding may spoil the costs
and the potentials, but as long as each root sees its slacks below the sentinel, every phase
matches its root and the reported pairs are a part of the matching. -/
namespace LinearAssignment

variable [Scalar α]

/-- Each phase searches from the lowest free row, which is the row of its number, and the walk back
from the free column that the search finds ends at this very row. -/
def Run.WalksEndAtRoots (costs : Grid α m n) : Prop :=
  ∀ count, ∀ hcount : count < m, ∃ run col search path,
    phases costs count (start costs) = .ok run ∧
      run.matching.freeRows.head? = some ⟨count, hcount⟩ ∧
        Phase costs run ⟨count, hcount⟩ col search path ∧
          run.matching.augment count col.val search.parents.toArray =
            .ok (run.matching.pairAll path).countOne

theorem Run.walksEndAtRoots {costs : Grid α m n} (hmn : m ≤ n)
    (hslack : SlacksBelowInfinity costs) : WalksEndAtRoots costs := by
  intro count hcount
  obtain ⟨run, hrun, hprogress⟩ := exists_progress hmn hslack hcount.le
  have hhead := hprogress.head_freeRows hcount
  obtain ⟨col, search, path, hphase⟩ :=
    hprogress.exists_phase hcount hmn (hslack count run _ hrun hhead)
  exact ⟨run, col, search, path, hrun, hhead, hphase, hphase.leads.augment_eq hphase.free⟩

namespace Solution

/-- The solution matches every row of the standard form, one in each phase, and reports the
admissible ones among the matched pairs and the sum of their values. -/
structure Sound (solution : Solution α rows cols) : Prop where
  phases_eq : solution.tally.phases = min rows cols
  walks : Run.WalksEndAtRoots solution.problem.costs
  consistent : solution.run.matching.Consistent
  matched : ∀ row, solution.run.matching.columnOf row ≠ none
  counts : solution.run.matching.Counts
  isPairing : IsPairing solution.reported.toFinset
  reports : solution.assignment.Reports solution.reported.toFinset
  reported_iff : ∀ pair, pair ∈ solution.reported ↔
    solution.run.matching.columnOf (Problem.innerRow pair) = some (Problem.innerCol pair) ∧
      solution.problem.admissible pair.1 pair.2 = true
  full : solution.problem.criterion.gate = none →
    solution.assignment.numAssigned = min rows cols
  ordered : solution.reported.Pairwise fun pair other =>
    Problem.innerRow pair < Problem.innerRow other
  objective_eq : solution.assignment.objective =
    (solution.reported.map fun pair =>
      solution.problem.values.entry pair.1 pair.2).foldl (· + ·) 0

end Solution

/-- Whatever the numbers are, slacks below the sentinel are all that a sound solution takes. -/
theorem Problem.exists_sound (problem : Problem α rows cols)
    (hslack : Run.SlacksBelowInfinity problem.costs) :
    ∃ solution, problem.solve = .ok solution ∧ solution.problem = problem ∧ solution.Sound := by
  obtain ⟨run, hrun, hprogress⟩ := Run.exists_progress min_le_max hslack (le_refl _)
  have hm := hprogress.consistent
  have hlength := Matching.length_pairs_of_matched hprogress.columnOf_ne_none
  refine ⟨⟨problem, run⟩, solve_eq_ok hrun, rfl, ?_⟩
  exact
    { phases_eq := hprogress.phases_eq
      walks := Run.walksEndAtRoots min_le_max hslack
      consistent := hm
      matched := hprogress.columnOf_ne_none
      counts := hprogress.size_eq.trans hlength.symm
      isPairing := Solution.isPairing_reported hm
      reports := Solution.reports_assignment hm
      reported_iff := fun pair => Solution.mem_reported
      full := fun hgate => by
        rw [Solution.numAssigned_assignment hm, Solution.length_reported_of_gate_none hgate]
        exact hlength
      ordered := Solution.pairwise_reported _
      objective_eq := rfl }

theorem Problem.exists_sound_two_by_three :
    let problem : Problem (Exact ℚ) 2 3 :=
      ⟨Grid.exact ![![4, 1, 3], ![2, 0, 5]], .minimize, fun i j => by simp,
        fun gate hgate => by cases hgate⟩
    Run.SlacksBelowInfinity problem.costs ∧
      ∃ solution, problem.solve = .ok solution ∧ solution.problem = problem ∧ solution.Sound := by
  intro problem
  have hslack : Run.SlacksBelowInfinity problem.costs := by
    rw [problem.costs_eq_exact]
    exact Run.slacksBelowInfinity_exact problem.cost min_le_max
  exact ⟨hslack, problem.exists_sound hslack⟩

end LinearAssignment
