import LinearAssignment.Proofs.Run.Invariant
import LinearAssignment.Proofs.Solution.Certified

/-! The potentials of a solution among all that anyone could write down. Feasible potentials total
no more than any complete choice of columns costs, and those that a run ends with total as much as
the choice that it has made, so none total more. -/
namespace LinearAssignment

/-- Under the potentials no slack is below zero. The columns are not above zero either, unless there
are as many of them as rows, where no column can be left out. -/
structure Potentials.Feasible [Scalar α] (costs : Grid α m n) (potentials : Potentials α m n) :
    Prop where
  slack_nonneg : ∀ i j, 0 ≤ potentials.slack costs i j
  nonpos : m ≠ n → ∀ j, potentials.col j ≤ 0

variable [Field K] [LinearOrder K]

/-- No feasible potentials have a greater total than those of the solution, which total what the
matched pairs cost. So its bound is the tightest that potentials give, and whatever feasible ones
give holds of every complete choice. -/
structure Solution.DualOptimal (solution : Solution (Exact K) rows cols) : Prop where
  feasible : solution.run.potentials.Feasible solution.problem.costs
  exists_choice : ∃ choice, Function.Injective choice ∧
    (∀ i, solution.run.matching.columnOf i = some (choice i)) ∧
      solution.run.potentials.total = solution.problem.costs.costOf choice
  total_le : ∀ u v, (Potentials.exact u v).Feasible solution.problem.costs →
    (Potentials.exact u v).total ≤ solution.run.potentials.total
  dualBound_tightest : ∀ u v, (Potentials.exact u v).Feasible solution.problem.costs →
    solution.problem.criterion.sense.AtLeastAsGood
      (solution.problem.criterion.sense.ofCost (Potentials.exact u v).total) solution.dualBound
  total_le_costOf : ∀ u v, (Potentials.exact u v).Feasible solution.problem.costs →
    ∀ choice, Function.Injective choice →
      (Potentials.exact u v).total ≤ solution.problem.costs.costOf choice

variable [IsStrictOrderedRing K]

theorem Potentials.feasible_exact_iff {cost : Fin m → Fin n → K} {u : Fin m → K}
    {v : Fin n → K} :
    (exact u v).Feasible (Grid.exact cost) ↔
      (∀ i j, u i + v j ≤ cost i j) ∧ (m ≠ n → ∀ j, v j ≤ 0) := by
  have hcol (j : Fin n) : (exact u v).col j ≤ 0 ↔ v j ≤ 0 := by
    rw [col_exact]
    exact Exact.finite_le (v j) 0
  constructor
  · intro h
    exact ⟨fun i j => (Run.zero_le_slack_iff i j).mp (h.slack_nonneg i j),
      fun hmn j => (hcol j).mp (h.nonpos hmn j)⟩
  · rintro ⟨hfeasible, hnonpos⟩
    exact ⟨fun i j => (Run.zero_le_slack_iff i j).mpr (hfeasible i j),
      fun hmn j => (hcol j).mpr (hnonpos hmn j)⟩

theorem Potentials.Feasible.total_le_costOf {cost : Fin m → Fin n → K} {u : Fin m → K}
    {v : Fin n → K} (h : (exact u v).Feasible (Grid.exact cost)) {choice : Fin m → Fin n}
    (hchoice : Function.Injective choice) :
    (exact u v).total ≤ (Grid.exact cost).costOf choice := by
  obtain ⟨hfeasible, hnonpos⟩ := feasible_exact_iff.mp h
  rw [total_exact, Grid.costOf_exact]
  exact total_le_of_injective hfeasible hnonpos hchoice

theorem Sense.atLeastAsGood_ofCost {bound best : K} (sense : Sense) (h : bound ≤ best) :
    sense.AtLeastAsGood (sense.ofCost (Exact.finite bound)) (sense.ofCost (.finite best)) := by
  cases sense with
  | minimize => exact h
  | maximize => exact neg_le_neg h

theorem Solution.Certified.dualOptimal {solution : Solution (Exact K) rows cols}
    (h : solution.Certified) : solution.DualOptimal := by
  obtain ⟨u, v, hpotentials, hcert⟩ := h.certified
  obtain ⟨choice, hcheapest, hmatched, htotal⟩ :=
    hcert.exists_cheapest h.progress.consistent h.progress.columnOf_ne_none
  have hcosts := solution.problem.costs_eq_exact
  have hfinal : solution.run.potentials.total = solution.problem.costs.costOf choice := by
    rw [hpotentials, Potentials.total_exact, htotal, hcosts, Grid.costOf_exact]
  have hbound (u' : Fin (min rows cols) → K) (v' : Fin (max rows cols) → K)
      (hfeasible : (Potentials.exact u' v').Feasible solution.problem.costs)
      (other : Fin (min rows cols) → Fin (max rows cols)) (hother : Function.Injective other) :
      (Potentials.exact u' v').total ≤ solution.problem.costs.costOf other := by
    rw [hcosts] at hfeasible ⊢
    exact hfeasible.total_le_costOf hother
  constructor
  case feasible =>
    rw [hpotentials, hcosts]
    exact Potentials.feasible_exact_iff.mpr ⟨hcert.feasible, fun _ => hcert.nonpos⟩
  case exists_choice => exact ⟨choice, hcheapest.injective, hmatched, hfinal⟩
  case total_le =>
    intro u' v' hfeasible
    rw [hfinal]
    exact hbound u' v' hfeasible choice hcheapest.injective
  case dualBound_tightest =>
    intro u' v' hfeasible
    have hle := hbound u' v' hfeasible choice hcheapest.injective
    rw [← hfinal, hpotentials, Potentials.total_exact, Potentials.total_exact,
      Exact.finite_le] at hle
    rw [Solution.dualBound, hpotentials, Potentials.total_exact, Potentials.total_exact]
    exact Sense.atLeastAsGood_ofCost _ hle
  case total_le_costOf => exact hbound

/-- In exact arithmetic every problem is solved with potentials that no feasible ones exceed. -/
theorem Problem.exists_dualOptimal (problem : Problem (Exact K) rows cols) :
    ∃ solution, problem.solve = .ok solution ∧ solution.problem = problem ∧
      solution.DualOptimal := by
  obtain ⟨solution, hsolve, hproblem, hcertified⟩ := problem.exists_certified
  exact ⟨solution, hsolve, hproblem, hcertified.dualOptimal⟩

theorem Problem.exists_dualOptimal_two_by_two :
    let problem : Problem (Exact ℚ) 2 2 :=
      ⟨Grid.exact ![![1, 4], ![2, 8]], .minimize, fun i j => by simp,
        fun gate hgate => by cases hgate⟩
    let potentials : Potentials (Exact ℚ) 2 2 := Potentials.exact ![0, 1] ![1, 4]
    let crossed : Fin 2 → Fin 2 := ![1, 0]
    potentials.Feasible problem.costs ∧ potentials.total = problem.costs.costOf crossed ∧
      ∃ solution, problem.solve = .ok solution ∧ solution.problem = problem ∧
        solution.DualOptimal := by
  intro problem potentials crossed
  have hfeasible : potentials.Feasible problem.costs :=
    ⟨by decide +kernel, fun h => absurd rfl h⟩
  exact ⟨hfeasible, by decide +kernel, problem.exists_dualOptimal⟩

end LinearAssignment
