import LinearAssignment.Proofs.Problem.Exact
import LinearAssignment.Proofs.Run.Direct
import LinearAssignment.Proofs.Run.Trace
import LinearAssignment.Solution

/-! What the counters of a solution tell of its problem. No step was made exactly if the rows of the
standard form can all have a least cost of theirs at once. No column more than necessary was
scanned exactly if they get it by each taking the first column that has it. -/
namespace LinearAssignment

section
variable [Field K] [LinearOrder K] {cost : Fin m → Fin n → K} {lowest : Fin m → K}

theorem IsCheapest.sum_eq {best other : Fin m → Fin n} (h : IsCheapest cost best)
    (h' : IsCheapest cost other) : ∑ i, cost i (best i) = ∑ i, cost i (other i) :=
  le_antisymm (h.le other h'.injective) (h'.le best h.injective)

variable [IsStrictOrderedRing K]

theorem sum_lowest_le (hlowest : ∀ i, IsLeast (Set.range (cost i)) (lowest i))
    (choice : Fin m → Fin n) : ∑ i, lowest i ≤ ∑ i, cost i (choice i) :=
  Finset.sum_le_sum fun i _ => (hlowest i).2 ⟨choice i, rfl⟩

theorem sum_eq_sum_lowest_iff (hlowest : ∀ i, IsLeast (Set.range (cost i)) (lowest i))
    (choice : Fin m → Fin n) :
    ∑ i, cost i (choice i) = ∑ i, lowest i ↔ ∀ i, cost i (choice i) = lowest i := by
  rw [eq_comm, Finset.sum_eq_sum_iff_of_le fun i _ => (hlowest i).2 ⟨choice i, rfl⟩]
  simp [eq_comm]

/-- Rows can have least costs in different columns exactly if a cheapest choice gives them to all. -/
theorem IsCheapest.exists_lowest_iff {best : Fin m → Fin n} (h : IsCheapest cost best)
    (hlowest : ∀ i, IsLeast (Set.range (cost i)) (lowest i)) :
    (∃ choice, Function.Injective choice ∧ ∀ i, cost i (choice i) = lowest i) ↔
      ∑ i, cost i (best i) = ∑ i, lowest i := by
  constructor
  · rintro ⟨choice, hchoice, heq⟩
    apply le_antisymm _ (sum_lowest_le hlowest best)
    rw [← (sum_eq_sum_lowest_iff hlowest choice).mpr heq]
    exact h.le choice hchoice
  · exact fun hsum => ⟨best, h.injective, (sum_eq_sum_lowest_iff hlowest best).mp hsum⟩

end

variable [Field K] [LinearOrder K]

/-- Every row of the standard form is matched to the column that it takes first, and the potentials
have never moved. -/
structure Solution.TakesFirst (solution : Solution (Exact K) rows cols)
    (first : Fin (min rows cols) → Fin (max rows cols)) : Prop where
  columnOf_eq : ∀ i, solution.run.matching.columnOf i = some (first i)
  rowOf_iff : ∀ i j, solution.run.matching.rowOf j = some i ↔ first i = j
  updates_eq : solution.tally.dualUpdates = 0
  potentials_eq : solution.run.potentials = Potentials.initial solution.problem.costs

/-- What the counters tell, given the least cost of each row of the standard form and the first
column that has it. -/
structure Solution.CountersTell (solution : Solution (Exact K) rows cols)
    (lowest : Fin (min rows cols) → K) (first : Fin (min rows cols) → Fin (max rows cols)) :
    Prop where
  updates_eq_zero_iff : solution.tally.dualUpdates = 0 ↔
    ∃ choice, Function.Injective choice ∧ ∀ i, solution.problem.cost i (choice i) = lowest i
  exists_cheapest : ∃ best, IsCheapest solution.problem.cost best
  updates_eq_zero_iff_sum : ∀ best, IsCheapest solution.problem.cost best →
    (solution.tally.dualUpdates = 0 ↔
      ∑ i, solution.problem.cost i (best i) = ∑ i, lowest i)
  scanned_eq_iff : solution.tally.columnsScanned = min rows cols ↔ Function.Injective first
  takesFirst : Function.Injective first → solution.TakesFirst first

variable [IsStrictOrderedRing K]

theorem Run.Gained.updates_eq_zero_iff_sum {cost : Fin m → Fin n → K} {lowest : Fin m → K}
    {run : Run (Exact K) m n} (h : Gained cost run) (htold : Told m run)
    (hprogress : Progress m run) (hcertified : Certified cost run)
    (hinitial : Potentials.initial (Grid.exact cost) = Potentials.exact lowest fun _ => 0)
    {best : Fin m → Fin n} (hbest : IsCheapest cost best) :
    run.tally.dualUpdates = 0 ↔ ∑ i, cost i (best i) = ∑ i, lowest i := by
  obtain ⟨u, v, hpotentials, hcert⟩ := hcertified
  obtain ⟨choice, hchoice, -, htotal⟩ :=
    hcert.exists_cheapest hprogress.consistent hprogress.columnOf_ne_none
  have hfirst : (Potentials.initial (Grid.exact cost)).total = .finite (∑ i, lowest i) := by
    rw [hinitial, Potentials.total_exact, Finset.sum_const_zero, add_zero]
  rw [h.updates_eq_zero_iff htold hfirst, hpotentials, Potentials.total_exact, htotal,
    Exact.finite.injEq, hchoice.sum_eq hbest]

/-- In exact arithmetic the counters of every solved problem tell whether it was an easy one. -/
theorem Problem.exists_countersTell (problem : Problem (Exact K) rows cols) :
    ∃ solution lowest first, problem.solve = .ok solution ∧ solution.problem = problem ∧
      (∀ i, IsLeast (Set.range (problem.cost i)) (lowest i)) ∧
        (∀ i, FirstCheapest problem.cost i (first i)) ∧ solution.CountersTell lowest first := by
  obtain ⟨lowest, hlowest, hinitial⟩ := exists_initial_exact problem.cost min_le_max
  choose first hfirst using fun i : Fin (min rows cols) =>
    exists_firstCheapest problem.cost (Nat.lt_of_lt_of_le i.pos min_le_max) i
  have hslack := Run.slacksBelowInfinity_exact problem.cost min_le_max
  obtain ⟨run, hrun, hprogress, hcertified, hgained⟩ :=
    Run.exists_gained problem.cost min_le_max (le_refl (min rows cols))
  obtain ⟨run', hrun', -, htold⟩ := Run.exists_told min_le_max hslack (le_refl (min rows cols))
  cases hrun.symm.trans hrun'
  obtain ⟨run', hrun', -, hgreedy⟩ :=
    Run.exists_greedy min_le_max hfirst (le_refl (min rows cols))
  cases hrun.symm.trans hrun'
  have hm := hprogress.consistent
  have hsum {best : Fin (min rows cols) → Fin (max rows cols)}
      (hbest : IsCheapest problem.cost best) :=
    hgained.updates_eq_zero_iff_sum htold hprogress hcertified hinitial hbest
  obtain ⟨u, v, -, hcert⟩ := hcertified
  obtain ⟨best, hbest, -⟩ := hcert.exists_cheapest hm hprogress.columnOf_ne_none
  rw [← problem.costs_eq_exact] at hrun
  refine ⟨⟨problem, run⟩, lowest, first, solve_eq_ok hrun, rfl, hlowest, hfirst, ?_⟩
  constructor
  case updates_eq_zero_iff => exact (hsum hbest).trans (hbest.exists_lowest_iff hlowest).symm
  case exists_cheapest => exact ⟨best, hbest⟩
  case updates_eq_zero_iff_sum => exact fun _ h => hsum h
  case scanned_eq_iff => exact hgreedy.scanned_eq_iff hm
  case takesFirst =>
    intro hinjective
    have hdirect := hgreedy.direct (.inr hinjective)
    have hcolumn (i : Fin (min rows cols)) := hdirect.columnOf_eq i i.isLt
    refine ⟨hcolumn, fun i j => ?_, hdirect.updates_eq, ?_⟩
    · rw [← hm i j, hcolumn i, Option.some.injEq]
    · rw [problem.costs_eq_exact]
      exact hdirect.potentials_eq

theorem Problem.exists_countersTell_two_by_two :
    let problem : Problem (Exact ℚ) 2 2 :=
      ⟨Grid.exact ![![1, 9], ![9, 1]], .minimize, fun i j => by simp,
        fun gate hgate => by cases hgate⟩
    ∃ solution lowest first, problem.solve = .ok solution ∧ solution.problem = problem ∧
      (∀ i, IsLeast (Set.range (problem.cost i)) (lowest i)) ∧
        (∀ i, FirstCheapest problem.cost i (first i)) ∧ solution.CountersTell lowest first := by
  intro problem
  exact problem.exists_countersTell

/-- Both rows take the first column first. They can still have a least cost each, because the first
row has a second column for as much, and no step is made while one column too many is scanned. -/
example :
    let problem : Problem (Exact ℚ) 2 2 :=
      ⟨Grid.exact ![![1, 1], ![2, 5]], .minimize, fun i j => by simp,
        fun gate hgate => by cases hgate⟩
    (problem.solve.toOption.map Solution.tally) = some ⟨2, 0, 3⟩ := by
  decide +kernel

end LinearAssignment
