import LinearAssignment.Proofs.Solution.Certified

/-! The potentials in the orientation of the caller. Exchanging the sides of the table exchanges the
potentials with them, so what they certify of the standard form they certify of the table; the pairs
that the gate refuses stay matched there and account for the rest of the dual bound. -/
namespace LinearAssignment

namespace Problem

variable [Scalar α] (problem : Problem α rows cols)

def price (row : Fin rows) (col : Fin cols) : α :=
  if problem.admissible row col then
    problem.criterion.sense.toCost (problem.values.entry row col)
  else problem.penalty

theorem entry_costs_inner (pair : Fin rows × Fin cols) :
    problem.costs.entry (innerRow pair) (innerCol pair) = problem.price pair.1 pair.2 := by
  rw [entry_costs, admissibleIn_eq, costIn, valueIn, locate_inner, price]

theorem price_eq_cost [Field K] [LinearOrder K] (problem : Problem (Exact K) rows cols)
    (pair : Fin rows × Fin cols) :
    problem.price pair.1 pair.2 = .finite (problem.cost (innerRow pair) (innerCol pair)) := by
  rw [← entry_costs_inner, costs_eq_exact, Grid.entry_exact]

end Problem

namespace Solution

section
variable [Scalar α] (solution : Solution α rows cols)

def Matches (row : Fin rows) (col : Fin cols) : Prop :=
  solution.run.matching.columnOf (Problem.innerRow (row, col)) =
    some (Problem.innerCol (row, col))

theorem rowPotentials_of_lt (h : cols < rows) (row : Fin rows) :
    solution.rowPotentials.get row =
      solution.run.potentials.col (row.cast (Problem.max_eq_rows h).symm) := by
  rw [rowPotentials, dif_pos h, get_cast]
  rfl

theorem rowPotentials_of_not_lt (h : ¬cols < rows) (row : Fin rows) :
    solution.rowPotentials.get row =
      solution.run.potentials.row (row.cast (Problem.min_eq_rows h).symm) := by
  rw [rowPotentials, dif_neg h, get_cast]
  rfl

theorem colPotentials_of_lt (h : cols < rows) (col : Fin cols) :
    solution.colPotentials.get col =
      solution.run.potentials.row (col.cast (Problem.min_eq_cols h).symm) := by
  rw [colPotentials, dif_pos h, get_cast]
  rfl

theorem colPotentials_of_not_lt (h : ¬cols < rows) (col : Fin cols) :
    solution.colPotentials.get col =
      solution.run.potentials.col (col.cast (Problem.max_eq_cols h).symm) := by
  rw [colPotentials, dif_neg h, get_cast]
  rfl

theorem rowOf_eq_none (hm : solution.run.matching.Consistent) {j : Fin (max rows cols)}
    (h : ∀ row col, Problem.innerCol (row, col) = j → ¬solution.Matches row col) :
    solution.run.matching.rowOf j = none := by
  cases hj : solution.run.matching.rowOf j with
  | none => rfl
  | some i =>
    have hmatches : solution.Matches (Problem.locate i j).1 (Problem.locate i j).2 := by
      rw [Matches, Problem.innerRow_locate, Problem.innerCol_locate]
      exact (hm i j).mpr hj
    exact absurd hmatches (h _ _ (Problem.innerCol_locate i j))

end

variable [Field K] [LinearOrder K] {solution : Solution (Exact K) rows cols}

theorem rowPotentials_add_colPotentials
    (h : solution.run.potentials = Potentials.exact u v) (row : Fin rows) (col : Fin cols) :
    solution.rowPotentials.get row + solution.colPotentials.get col =
      .finite (u (Problem.innerRow (row, col)) + v (Problem.innerCol (row, col))) := by
  by_cases hlt : cols < rows
  · rw [rowPotentials_of_lt solution hlt, colPotentials_of_lt solution hlt, h,
      Potentials.col_exact, Potentials.row_exact, Exact.finite_add, add_comm,
      Problem.innerRow, Problem.innerCol, dif_pos hlt, dif_pos hlt]
  · rw [rowPotentials_of_not_lt solution hlt, colPotentials_of_not_lt solution hlt, h,
      Potentials.col_exact, Potentials.row_exact, Exact.finite_add,
      Problem.innerRow, Problem.innerCol, dif_neg hlt, dif_neg hlt]

/-- The potentials of the table stay below its prices and meet them on the matched pairs. The larger
side is not above zero, and at zero where it is free. Their total is the objective and a penalty
for each matched pair that is not reported. -/
structure DualCertificate (solution : Solution (Exact K) rows cols) : Prop where
  feasible : ∀ row col, solution.rowPotentials.get row + solution.colPotentials.get col ≤
    solution.problem.price row col
  tight : ∀ row col, solution.Matches row col →
    solution.rowPotentials.get row + solution.colPotentials.get col =
      solution.problem.price row col
  cols_nonpos : rows ≤ cols → ∀ col, solution.colPotentials.get col ≤ 0
  cols_free : rows ≤ cols → ∀ col, (∀ row, ¬solution.Matches row col) →
    solution.colPotentials.get col = 0
  rows_nonpos : cols < rows → ∀ row, solution.rowPotentials.get row ≤ 0
  rows_free : cols < rows → ∀ row, (∀ col, ¬solution.Matches row col) →
    solution.rowPotentials.get row = 0
  dualBound_eq : ∃ fee, solution.problem.penalty = .finite fee ∧
    solution.dualBound = solution.assignment.objective +
      solution.problem.criterion.sense.ofCost
        (.finite (((min rows cols - solution.assignment.numAssigned : Nat) : K) * fee))
  dualBound_eq_objective : solution.problem.criterion.gate = none ∨
    solution.assignment.numAssigned = min rows cols →
      solution.dualBound = solution.assignment.objective

theorem Certified.numAssigned_eq (h : solution.Certified) :
    solution.assignment.numAssigned =
      (solution.problem.kept solution.run.matching.pairs.toFinset).card := by
  rw [numAssigned_assignment h.progress.consistent, ← card_reported,
    List.toFinset_card_of_nodup solution.nodup_reported]

theorem Certified.dualBound_eq (h : solution.Certified) :
    solution.dualBound = .finite
      (∑ pair ∈ solution.reported.toFinset, solution.problem.number pair +
        solution.problem.criterion.sense.signed
          (((min rows cols - solution.assignment.numAssigned : Nat) : K) *
            solution.problem.fee)) := by
  obtain ⟨u, v, hpotentials, hcert⟩ := h.certified
  have htotal := hcert.total_eq h.progress.consistent h.length_pairs
  rw [solution.problem.sum_cost, solution.run.matching.card_pairs, h.length_pairs, ← h.numAssigned_eq,
    ← signed_sum_reported] at htotal
  rw [dualBound, hpotentials, Potentials.total_exact, htotal, Sense.ofCost_eq_toCost,
    Sense.toCost_finite, Sense.signed_add, Sense.signed_signed]

theorem Certified.dualCertificate (h : solution.Certified) : solution.DualCertificate := by
  have hm := h.progress.consistent
  have hbound := h.dualBound_eq
  obtain ⟨u, v, hpotentials, hcert⟩ := h.certified
  have hsum := rowPotentials_add_colPotentials hpotentials
  refine
    { feasible := ?feasible, tight := ?tight, cols_nonpos := ?cols_nonpos, cols_free := ?cols_free
      rows_nonpos := ?rows_nonpos, rows_free := ?rows_free, dualBound_eq := ?dualBound_eq
      dualBound_eq_objective := ?dualBound_eq_objective }
  case feasible =>
    intro row col
    rw [hsum, solution.problem.price_eq_cost (row, col)]
    exact hcert.feasible _ _
  case tight =>
    intro row col hmatches
    rw [hsum, solution.problem.price_eq_cost (row, col), hcert.tight _ _ hmatches]
  case cols_nonpos =>
    intro hle col
    rw [colPotentials_of_not_lt solution hle.not_gt, hpotentials, Potentials.col_exact]
    exact hcert.nonpos _
  case cols_free =>
    intro hle col hfree
    rw [colPotentials_of_not_lt solution hle.not_gt, hpotentials, Potentials.col_exact,
      hcert.free _ (solution.rowOf_eq_none hm fun row col' hcol => ?_)]
    · rfl
    · rw [Problem.innerCol, dif_neg hle.not_gt] at hcol
      have heq : col' = col := Fin.cast_injective _ hcol
      rw [heq]
      exact hfree row
  case rows_nonpos =>
    intro hlt row
    rw [rowPotentials_of_lt solution hlt, hpotentials, Potentials.col_exact]
    exact hcert.nonpos _
  case rows_free =>
    intro hlt row hfree
    rw [rowPotentials_of_lt solution hlt, hpotentials, Potentials.col_exact,
      hcert.free _ (solution.rowOf_eq_none hm fun row' col hcol => ?_)]
    · rfl
    · rw [Problem.innerCol, dif_pos hlt] at hcol
      have heq : row' = row := Fin.cast_injective _ hcol
      rw [heq]
      exact hfree col
  case dualBound_eq =>
    refine ⟨solution.problem.fee, solution.problem.penalty_eq_fee, ?_⟩
    rw [hbound, objective_assignment, objective_eq_sum, Sense.ofCost_eq_toCost,
      Sense.toCost_finite, Exact.finite_add]
  case dualBound_eq_objective =>
    intro hcase
    have hcomplete : solution.assignment.numAssigned = min rows cols := by
      rcases hcase with hgate | hcomplete
      · rw [numAssigned_assignment hm, length_reported_of_gate_none hgate, h.length_pairs]
      · exact hcomplete
    rw [hbound, objective_assignment, objective_eq_sum, hcomplete, Nat.sub_self, Nat.cast_zero,
      zero_mul, Sense.signed_zero, add_zero]

end Solution

/-- In exact arithmetic every problem is solved, and the potentials certify the solution in the
orientation of the caller. -/
theorem Problem.exists_dualCertificate [Field K] [LinearOrder K] [IsStrictOrderedRing K]
    (problem : Problem (Exact K) rows cols) :
    ∃ solution, problem.solve = .ok solution ∧ solution.problem = problem ∧
      solution.DualCertificate := by
  obtain ⟨solution, hsolve, hproblem, hcertified⟩ := problem.exists_certified
  exact ⟨solution, hsolve, hproblem, hcertified.dualCertificate⟩

theorem Problem.exists_dualCertificate_three_by_two :
    let problem : Problem (Exact ℚ) 3 2 :=
      ⟨Grid.exact ![![4, 1], ![-2, 0], ![3, 2]], Criterion.maximize.withGate (.finite 1),
        fun i j => by simp, fun gate hgate => by cases hgate; rfl⟩
    ∃ solution, problem.solve = .ok solution ∧ solution.problem = problem ∧
      solution.DualCertificate := by
  intro problem
  exact problem.exists_dualCertificate

end LinearAssignment
