import LinearAssignment.Proofs.Problem.Accepted
import LinearAssignment.Proofs.Solution.Certified

/-! Optimality in exact arithmetic, as the caller sees it. Nothing is asked of the values, so costs
may be negative and the gate may refuse any of them. -/
namespace LinearAssignment

theorem solveRowMajor_eq_ok [Scalar α] {values : Array α} {criterion : Criterion α}
    {problem : Problem α rows cols} {solution : Solution α rows cols}
    (hproblem : Problem.ofRowMajor values rows cols criterion = .ok problem)
    (hfits : Problem.fits α rows cols = true) (hsolve : problem.solve = .ok solution) :
    solveRowMajor values rows cols criterion = .ok solution := by
  simp [solveRowMajor, solveAccepted, hproblem, Problem.allocate, hfits, hsolve, bind, Except.bind,
    Except.mapError]

variable [Field K] [LinearOrder K] [IsStrictOrderedRing K]

theorem exists_solveRowMajor (values : Vector K (rows * cols))
    (hlimit : rows * cols < Problem.cellLimit) (criterion : Criterion (Exact K))
    (hgate : ∀ gate ∈ criterion.gate, ∃ number, gate = .finite number) :
    ∃ solution : Solution (Exact K) rows cols,
      solveRowMajor (values.toArray.map .finite) rows cols criterion = .ok solution ∧
        solution.Certified ∧ solution.problem.criterion = criterion ∧
          solution.problem.number =
            fun pair => (Grid.ofRowMajor values).entry pair.1 pair.2 := by
  obtain ⟨problem, hproblem, hcriterion, hnumber⟩ :=
    Problem.exists_ofRowMajor values hlimit hgate
  obtain ⟨solution, hsolve, rfl, hcertified⟩ := problem.exists_certified
  exact ⟨solution, solveRowMajor_eq_ok hproblem rfl hsolve, hcertified, hcriterion, funext hnumber⟩

/-- Without a gate the smaller side is assigned completely, and no other complete pairing has a
better total. -/
theorem assign_optimal (values : Vector K (rows * cols)) (sense : Sense)
    (hlimit : rows * cols < Problem.cellLimit) :
    ∃ assignment, ∃ pairs : Finset (Fin rows × Fin cols),
      assign (values.toArray.map Exact.finite) rows cols sense = .ok assignment ∧
        assignment.Reports pairs ∧ IsPairing pairs ∧ pairs.card = min rows cols ∧
          assignment.objective =
            .finite (∑ pair ∈ pairs, (Grid.ofRowMajor values).entry pair.1 pair.2) ∧
          ∀ others : Finset (Fin rows × Fin cols), IsPairing others →
            others.card = min rows cols →
              sense.AtLeastAsGood (∑ pair ∈ pairs, (Grid.ofRowMajor values).entry pair.1 pair.2)
                (∑ pair ∈ others, (Grid.ofRowMajor values).entry pair.1 pair.2) := by
  obtain ⟨solution, hsolve, hcertified, hcriterion, hnumber⟩ :=
    exists_solveRowMajor values hlimit (.ofSense sense) fun gate hgate => by cases hgate
  have hm := hcertified.progress.consistent
  have hopen : solution.problem.criterion.gate = none := by rw [hcriterion]; rfl
  have hcard : solution.reported.toFinset.card = min rows cols := by
    rw [List.toFinset_card_of_nodup solution.nodup_reported,
      Solution.length_reported_of_gate_none hopen, hcertified.length_pairs]
  refine ⟨solution.assignment, solution.reported.toFinset, ?_, Solution.reports_assignment hm,
    Solution.isPairing_reported hm, hcard, ?_, ?_⟩
  · rw [assign, hsolve]
    rfl
  · have hobjective := solution.objective_eq_sum
    rwa [hnumber] at hobjective
  · intro others hothers hothersCard
    have hbest := hcertified.reported_best hothers fun pair _ =>
      Solution.admissible_of_gate_none hopen pair.1 pair.2
    rw [hnumber, hcriterion] at hbest
    exact hbest.2 (hothersCard.trans hcard.symm)

theorem assign_optimal_three_by_two :
    let values : Vector ℚ (3 * 2) := #v[4, 1, -2, 0, 3, 2]
    3 * 2 < Problem.cellLimit ∧
      ∃ assignment, ∃ pairs : Finset (Fin 3 × Fin 2),
        assign (values.toArray.map Exact.finite) 3 2 .maximize = .ok assignment ∧
          assignment.Reports pairs ∧ IsPairing pairs ∧ pairs.card = 2 ∧
            assignment.objective =
              .finite (∑ pair ∈ pairs, (Grid.ofRowMajor values).entry pair.1 pair.2) ∧
            ∀ others : Finset (Fin 3 × Fin 2), IsPairing others → others.card = 2 →
              ∑ pair ∈ others, (Grid.ofRowMajor values).entry pair.1 pair.2 ≤
                ∑ pair ∈ pairs, (Grid.ofRowMajor values).entry pair.1 pair.2 := by
  intro values
  exact ⟨by decide, assign_optimal values .maximize (by decide)⟩

/-- With a gate the assignment is made of admissible pairs. No pairing of admissible pairs has more
of them, and none with as many has a better total. -/
theorem assignGated_lexicographic (values : Vector K (rows * cols)) (sense : Sense) (gate : K)
    (hlimit : rows * cols < Problem.cellLimit) :
    ∃ assignment, ∃ pairs : Finset (Fin rows × Fin cols),
      assignGated (values.toArray.map Exact.finite) rows cols sense (.finite gate) =
          .ok assignment ∧
        assignment.Reports pairs ∧ IsPairing pairs ∧
          (∀ pair ∈ pairs,
            sense.AtLeastAsGood ((Grid.ofRowMajor values).entry pair.1 pair.2) gate) ∧
          assignment.objective =
            .finite (∑ pair ∈ pairs, (Grid.ofRowMajor values).entry pair.1 pair.2) ∧
          ∀ others : Finset (Fin rows × Fin cols), IsPairing others →
            (∀ pair ∈ others,
              sense.AtLeastAsGood ((Grid.ofRowMajor values).entry pair.1 pair.2) gate) →
            others.card ≤ pairs.card ∧
              (others.card = pairs.card →
                sense.AtLeastAsGood
                  (∑ pair ∈ pairs, (Grid.ofRowMajor values).entry pair.1 pair.2)
                  (∑ pair ∈ others, (Grid.ofRowMajor values).entry pair.1 pair.2)) := by
  obtain ⟨solution, hsolve, hcertified, hcriterion, hnumber⟩ :=
    exists_solveRowMajor values hlimit ((Criterion.ofSense sense).withGate (.finite gate))
      fun bound hbound => ⟨gate, (Option.some.inj hbound).symm⟩
  have hm := hcertified.progress.consistent
  have hadmissible (pair : Fin rows × Fin cols) :
      solution.problem.admissible pair.1 pair.2 = true ↔
        sense.AtLeastAsGood ((Grid.ofRowMajor values).entry pair.1 pair.2) gate := by
    rw [Problem.admissible, hcriterion, solution.problem.entry_eq_number pair, hnumber]
    exact Sense.admits_finite sense _ gate
  refine ⟨solution.assignment, solution.reported.toFinset, ?_, Solution.reports_assignment hm,
    Solution.isPairing_reported hm, ?_, ?_, ?_⟩
  · rw [assignGated, hsolve]
    rfl
  · intro pair hpair
    rw [List.mem_toFinset, Solution.mem_reported] at hpair
    exact (hadmissible pair).mp hpair.2
  · have hobjective := solution.objective_eq_sum
    rwa [hnumber] at hobjective
  · intro others hothers hbeyond
    have hbest := hcertified.reported_best hothers fun pair hpair =>
      (hadmissible pair).mpr (hbeyond pair hpair)
    rwa [hnumber, hcriterion] at hbest

theorem assignGated_lexicographic_two_by_two :
    let values : Vector ℚ (2 * 2) := #v[-3, 1, 2, 7]
    2 * 2 < Problem.cellLimit ∧
      ∃ assignment, ∃ pairs : Finset (Fin 2 × Fin 2),
        assignGated (values.toArray.map Exact.finite) 2 2 .minimize (.finite 2) =
            .ok assignment ∧
          assignment.Reports pairs ∧ IsPairing pairs ∧
            (∀ pair ∈ pairs, (Grid.ofRowMajor values).entry pair.1 pair.2 ≤ 2) ∧
            assignment.objective =
              .finite (∑ pair ∈ pairs, (Grid.ofRowMajor values).entry pair.1 pair.2) ∧
            ∀ others : Finset (Fin 2 × Fin 2), IsPairing others →
              (∀ pair ∈ others, (Grid.ofRowMajor values).entry pair.1 pair.2 ≤ 2) →
              others.card ≤ pairs.card ∧
                (others.card = pairs.card →
                  ∑ pair ∈ pairs, (Grid.ofRowMajor values).entry pair.1 pair.2 ≤
                    ∑ pair ∈ others, (Grid.ofRowMajor values).entry pair.1 pair.2) := by
  intro values
  exact ⟨by decide, assignGated_lexicographic values .minimize 2 (by decide)⟩

end LinearAssignment
