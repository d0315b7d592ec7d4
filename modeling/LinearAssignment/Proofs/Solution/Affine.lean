import LinearAssignment.Proofs.Run.Affine
import LinearAssignment.Proofs.Run.Cast
import LinearAssignment.Proofs.Solution.Optimality

/-! Problems whose costs differ by a positive factor and a number for each row. They are solved by
the same pairs in the same number of steps, whatever their senses and orientations are. In
particular the greatest total of some values is found where the least total of their differences to
a constant is. -/
namespace LinearAssignment

variable [Field K] [LinearOrder K]

namespace Problem

theorem cost_of_gate_none {problem : Problem (Exact K) rows cols}
    (h : problem.criterion.gate = none) (i : Fin (min rows cols)) (j : Fin (max rows cols)) :
    problem.cost i j = problem.signedNumber (i, j) := by
  have hadmissible : problem.admissibleIn i j = true := by
    simp [admissibleIn, Criterion.allows, h]
  rw [cost, if_pos hadmissible]

theorem exists_ofSense (values : Vector K (rows * cols)) (sense : Sense)
    (hlimit : rows * cols < cellLimit) :
    ∃ problem : Problem (Exact K) rows cols,
      ofRowMajor (values.toArray.map .finite) rows cols (.ofSense sense) = .ok problem ∧
        problem.criterion = .ofSense sense ∧
          ∀ pair, problem.number pair = (Grid.ofRowMajor values).entry pair.1 pair.2 :=
  exists_ofRowMajor values hlimit fun gate hgate => by cases hgate

variable [IsStrictOrderedRing K]

theorem exists_rescaled (problem : Problem (Exact K) rows cols)
    (other : Problem (Exact K) rows' cols') (hrows : min rows' cols' = min rows cols)
    (hcols : max rows' cols' = max rows cols) {factor : K} (hfactor : 0 < factor)
    {offset : Fin (min rows cols) → K}
    (hcost : ∀ i j, other.cost (i.cast hrows.symm) (j.cast hcols.symm) =
      factor * problem.cost i j + offset i) :
    ∃ solution solution', problem.solve = .ok solution ∧ other.solve = .ok solution' ∧
      solution.problem = problem ∧ solution'.problem = other ∧
        Run.Rescaled factor offset solution.run (solution'.run.cast hrows hcols) := by
  obtain ⟨run, run', hrun, hrun', hrescaled⟩ :=
    Run.exists_complete_rescaled min_le_max hfactor hcost
  have hcosts : other.costs.cast hrows hcols =
      Grid.exact fun i j => other.cost (i.cast hrows.symm) (j.cast hcols.symm) := by
    ext i j
    rw [Grid.entry_cast, costs_eq_exact, Grid.entry_exact, Grid.entry_exact]
  rw [← hcosts] at hrun'
  rw [← problem.costs_eq_exact] at hrun
  obtain ⟨final, hfinal, rfl⟩ := Run.complete_of_cast hrows hcols hrun'
  exact ⟨⟨problem, run⟩, ⟨other, final⟩, solve_eq_ok hrun, solve_eq_ok hfinal, rfl, rfl,
    hrescaled⟩

end Problem

theorem Solution.Certified.card_reported_of_gate_none {solution : Solution (Exact K) rows cols}
    (h : solution.Certified) (hopen : solution.problem.criterion.gate = none) :
    solution.reported.toFinset.card = min rows cols := by
  rw [List.toFinset_card_of_nodup solution.nodup_reported,
    Solution.length_reported_of_gate_none hopen, h.length_pairs]

variable [IsStrictOrderedRing K]

theorem exists_assign_complement (values : Vector K (rows * cols)) (constant : K)
    (hlimit : rows * cols < Problem.cellLimit) :
    ∃ best least total,
      assign (values.toArray.map Exact.finite) rows cols .maximize = .ok best ∧
        assign ((values.map (constant - ·)).toArray.map Exact.finite) rows cols .minimize =
          .ok least ∧
        best.mapping = least.mapping ∧ least.objective = .finite total ∧
          best.objective = .finite (constant * ((min rows cols : Nat) : K) - total) := by
  obtain ⟨problem, hproblem, hcriterion, hnumber⟩ :=
    Problem.exists_ofSense values .maximize hlimit
  obtain ⟨other, hother, hcriterion', hnumber'⟩ :=
    Problem.exists_ofSense (values.map (constant - ·)) .minimize hlimit
  have hopen : problem.criterion.gate = none := by rw [hcriterion]; rfl
  have hopen' : other.criterion.gate = none := by rw [hcriterion']; rfl
  have hsub (pair : Fin rows × Fin cols) :
      other.number pair = constant - problem.number pair := by
    rw [hnumber, hnumber', Grid.entry_ofRowMajor, Grid.entry_ofRowMajor]
    simp [Vector.get]
  have hcost (i : Fin (min rows cols)) (j : Fin (max rows cols)) :
      other.cost i j = 1 * problem.cost i j + constant := by
    rw [Problem.cost_of_gate_none hopen, Problem.cost_of_gate_none hopen', Problem.signedNumber,
      Problem.signedNumber, hcriterion, hcriterion', hsub]
    change constant - _ = 1 * -_ + constant
    ring
  obtain ⟨solution, solution', hsolve, hsolve', rfl, rfl, hrescaled⟩ :=
    problem.exists_rescaled other rfl rfl one_pos hcost
  have hmatching : solution'.run.matching = solution.run.matching := hrescaled.matching_eq
  have hreported : solution'.reported = solution.reported := by
    rw [Solution.reported_of_gate_none hopen, Solution.reported_of_gate_none hopen', hmatching]
  have hcard : solution.reported.toFinset.card = min rows cols := by
    obtain ⟨certified, hcertified, -, h⟩ := solution.problem.exists_certified
    cases hsolve.symm.trans hcertified
    exact h.card_reported_of_gate_none hopen
  refine ⟨solution.assignment, solution'.assignment, _, ?_, ?_, ?_, solution'.objective_eq_sum, ?_⟩
  · rw [assign, solveRowMajor_eq_ok hproblem rfl hsolve]
    rfl
  · rw [assign, solveRowMajor_eq_ok hother rfl hsolve']
    rfl
  · exact (Solution.mapping_congr hreported).symm
  · rw [Solution.objective_assignment, solution.objective_eq_sum, hreported,
      Finset.sum_congr rfl fun pair _ => hsub pair, Finset.sum_sub_distrib, Finset.sum_const, hcard,
      nsmul_eq_mul]
    congr 1
    ring

/-- Costs that differ by a positive factor and a number for each row are solved alike: the matching
and the counters are the same, and the potentials differ as the costs do. In particular a greatest
total and the least total of the differences to a constant are found at the same pairs. -/
theorem solve_affine :
    (∀ (rows cols rows' cols' : Nat) (problem : Problem (Exact K) rows cols)
        (other : Problem (Exact K) rows' cols') (hrows : min rows' cols' = min rows cols)
        (hcols : max rows' cols' = max rows cols) (factor : K) (offset : Fin (min rows cols) → K),
      0 < factor →
      (∀ i j, other.cost (i.cast hrows.symm) (j.cast hcols.symm) =
        factor * problem.cost i j + offset i) →
      ∃ solution solution', problem.solve = .ok solution ∧ other.solve = .ok solution' ∧
        solution.problem = problem ∧ solution'.problem = other ∧
          Run.Rescaled factor offset solution.run (solution'.run.cast hrows hcols)) ∧
    ∀ (rows cols : Nat) (values : Vector K (rows * cols)) (constant : K),
      rows * cols < Problem.cellLimit →
      ∃ best least total,
        assign (values.toArray.map Exact.finite) rows cols .maximize = .ok best ∧
          assign ((values.map (constant - ·)).toArray.map Exact.finite) rows cols .minimize =
            .ok least ∧
          best.mapping = least.mapping ∧ least.objective = .finite total ∧
            best.objective = .finite (constant * ((min rows cols : Nat) : K) - total) := by
  constructor
  · intro rows cols rows' cols' problem other hrows hcols factor offset hfactor hcost
    exact problem.exists_rescaled other hrows hcols hfactor hcost
  · intro rows cols values constant hlimit
    exact exists_assign_complement values constant hlimit

theorem solve_affine_two_by_three :
    let problem : Problem (Exact ℚ) 2 3 :=
      ⟨Grid.exact ![![4, 1, 3], ![2, 0, 5]], .minimize, fun i j => by simp,
        fun gate hgate => by cases hgate⟩
    let other : Problem (Exact ℚ) 3 2 :=
      ⟨Grid.exact ![![2, -5], ![8, -1], ![4, -11]], .maximize, fun i j => by simp,
        fun gate hgate => by cases hgate⟩
    let offset : Fin (min 2 3) → ℚ := ![-10, 1]
    let values : Vector ℚ (2 * 2) := #v[3, 3, 1, 1]
    (∀ i j, other.cost (i.cast rfl) (j.cast rfl) = 2 * problem.cost i j + offset i) ∧
      (∃ solution solution', problem.solve = .ok solution ∧ other.solve = .ok solution' ∧
        solution.problem = problem ∧ solution'.problem = other ∧
          Run.Rescaled 2 offset solution.run (solution'.run.cast rfl rfl)) ∧
      ∃ best least total,
        assign (values.toArray.map Exact.finite) 2 2 .maximize = .ok best ∧
          assign ((values.map (4 - ·)).toArray.map Exact.finite) 2 2 .minimize = .ok least ∧
          best.mapping = least.mapping ∧ least.objective = .finite total ∧
            best.objective = .finite (4 * ((min 2 2 : Nat) : ℚ) - total) := by
  intro problem other offset values
  have hcost : ∀ i j, other.cost (i.cast rfl) (j.cast rfl) = 2 * problem.cost i j + offset i := by
    decide +kernel
  exact ⟨hcost, solve_affine.1 2 3 3 2 problem other rfl rfl 2 offset (by norm_num) hcost,
    solve_affine.2 2 2 values 4 (by decide)⟩

end LinearAssignment
