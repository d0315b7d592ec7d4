import LinearAssignment.Proofs.Problem.Penalty
import LinearAssignment.Proofs.Run.Certified
import LinearAssignment.Proofs.Solution.Reported

/-! Solutions in exact arithmetic. The run certifies that the matching is complete and of least
cost in the standard form; what is reported is the part of it that the penalty does not pay for, so
it is best among the pairings of admissible pairs. -/
namespace LinearAssignment

variable [Field K] [LinearOrder K]

structure Solution.Certified (solution : Solution (Exact K) rows cols) : Prop where
  progress : Run.Progress (min rows cols) solution.run
  certified : Run.Certified solution.problem.cost solution.run

theorem Problem.exists_certified [IsStrictOrderedRing K] (problem : Problem (Exact K) rows cols) :
    ∃ solution, problem.solve = .ok solution ∧ solution.problem = problem ∧
      solution.Certified := by
  obtain ⟨run, hrun, hprogress, hcertified⟩ :=
    Run.exists_certified problem.cost min_le_max (le_refl (min rows cols))
  rw [← costs_eq_exact] at hrun
  exact ⟨⟨problem, run⟩, solve_eq_ok hrun, rfl, hprogress, hcertified⟩

namespace Solution

variable {solution : Solution (Exact K) rows cols}

theorem objective_eq_sum (solution : Solution (Exact K) rows cols) :
    solution.objective =
      .finite (∑ pair ∈ solution.reported.toFinset, solution.problem.number pair) := by
  have hvalues : (solution.reported.map fun pair =>
      solution.problem.values.entry pair.1 pair.2) =
      (solution.reported.map solution.problem.number).map Exact.finite := by
    rw [List.map_map]
    exact List.map_congr_left fun pair _ => solution.problem.entry_eq_number pair
  rw [objective, hvalues, Exact.sum_finite, List.sum_toFinset _ solution.nodup_reported]

theorem signed_sum_reported (solution : Solution (Exact K) rows cols) :
    solution.problem.criterion.sense.signed
        (∑ pair ∈ solution.reported.toFinset, solution.problem.number pair) =
      ∑ cell ∈ solution.problem.kept solution.run.matching.pairs.toFinset,
        solution.problem.signedNumber cell := by
  rw [toFinset_reported, Finset.sum_map, Sense.signed_sum]
  rfl

theorem card_reported (solution : Solution (Exact K) rows cols) :
    solution.reported.toFinset.card =
      (solution.problem.kept solution.run.matching.pairs.toFinset).card := by
  rw [toFinset_reported, Finset.card_map]

theorem Certified.length_pairs (h : solution.Certified) :
    solution.run.matching.pairs.length = min rows cols :=
  Matching.length_pairs_of_matched h.progress.columnOf_ne_none

variable [IsStrictOrderedRing K]

theorem Certified.sum_cost_le (h : solution.Certified)
    {full : Finset (Fin (min rows cols) × Fin (max rows cols))} (hfull : IsPairing full)
    (hcard : full.card = min rows cols) :
    ∑ cell ∈ solution.run.matching.pairs.toFinset, solution.problem.cost cell.1 cell.2 ≤
      ∑ cell ∈ full, solution.problem.cost cell.1 cell.2 := by
  obtain ⟨u, v, -, hcert⟩ := h.certified
  exact hcert.cost_le h.progress.consistent h.length_pairs hfull hcard

/-- No pairing of admissible pairs has more pairs than are reported, and none with as many has a
better total. -/
theorem Certified.reported_best (h : solution.Certified) {others : Finset (Fin rows × Fin cols)}
    (hothers : IsPairing others)
    (hadmissible : ∀ pair ∈ others, solution.problem.admissible pair.1 pair.2 = true) :
    others.card ≤ solution.reported.toFinset.card ∧
      (others.card = solution.reported.toFinset.card →
        solution.problem.criterion.sense.AtLeastAsGood
          (∑ pair ∈ solution.reported.toFinset, solution.problem.number pair)
          (∑ pair ∈ others, solution.problem.number pair)) := by
  have hcells : others.map (Problem.orientation rows cols).symm.toEmbedding ⊆
      solution.problem.admissibleCells := by
    intro cell hcell
    obtain ⟨pair, hpair, rfl⟩ := Finset.mem_map.mp hcell
    rw [Problem.mem_admissibleCells, Problem.admissibleIn_eq, Equiv.coe_toEmbedding,
      Problem.orientation_symm_apply, Problem.locate_inner]
    exact hadmissible pair hpair
  have hsum : ∑ cell ∈ others.map (Problem.orientation rows cols).symm.toEmbedding,
      solution.problem.signedNumber cell =
        solution.problem.criterion.sense.signed
          (∑ pair ∈ others, solution.problem.number pair) := by
    rw [Finset.sum_map, Sense.signed_sum]
    simp [Problem.signedNumber]
  have hbest := solution.problem.kept_best (solution.run.matching.card_pairs.trans h.length_pairs)
    (fun _ => h.sum_cost_le) (Problem.isPairing_inner hothers) hcells
  rw [Finset.card_map, hsum, ← signed_sum_reported, ← card_reported] at hbest
  rwa [Sense.atLeastAsGood_iff]

end Solution
end LinearAssignment
