import LinearAssignment.Proofs.Problem.Penalty
import LinearAssignment.Proofs.Run.Cast
import LinearAssignment.Proofs.Widening

/-! Problems with more columns on the right that nobody could want. Without a gate these are columns
which are in no row better than another one, and they cost no less in the standard form. Under a gate
they are columns that no row may have: they add nothing to the penalty, and cost the penalty, which
no cost exceeds. -/
namespace LinearAssignment.Problem

section
variable [Scalar α] (problem : Problem α rows cols)

theorem admissibleIn_cast (h : ¬cols < rows) (row : Fin rows) (col : Fin cols) :
    problem.admissibleIn (row.cast (min_eq_rows h).symm) (col.cast (max_eq_cols h).symm) =
      problem.admissible row col := by
  rw [admissibleIn_eq, locate_of_not_lt h]
  rfl

end

variable [Field K] [LinearOrder K] (problem : Problem (Exact K) rows cols)

def toll (row : Fin rows) (col : Fin cols) : K :=
  if problem.admissible row col then problem.criterion.sense.signed (problem.number (row, col))
  else problem.fee

theorem cost_cast (h : ¬cols < rows) (row : Fin rows) (col : Fin cols) :
    problem.cost (row.cast (min_eq_rows h).symm) (col.cast (max_eq_cols h).symm) =
      problem.toll row col := by
  rw [cost, admissibleIn_cast problem h, signedNumber, locate_of_not_lt h]
  rfl

theorem costs_cast (h : ¬cols < rows) :
    problem.costs.cast (min_eq_rows h) (max_eq_cols h) = Grid.exact problem.toll := by
  ext row col
  rw [Grid.entry_cast, costs_eq_exact, Grid.entry_exact, cost_cast problem h,
    Grid.entry_exact]

def beside (far : Fin rows → Fin extra → K) : Problem (Exact K) rows (cols + extra) where
  values := Grid.ofFn fun row =>
    Fin.append (problem.values.entry row) fun col => .finite (far row col)
  criterion := problem.criterion
  values_finite row col := by
    induction col using Fin.addCases with
    | left col =>
      rw [Grid.entry_ofFn, Fin.append_left]
      exact problem.values_finite row col
    | right col => rw [Grid.entry_ofFn, Fin.append_right, Exact.isFinite_finite]
  gate_finite := problem.gate_finite

/-- Nobody could want a far column: there is no gate, and no far value is better than any other one
of its row; or no far value is let through. -/
inductive Hopeless (far : Fin rows → Fin extra → K) : Prop where
  | dominated (hgate : problem.criterion.gate = none)
      (hbetter : ∀ row near col,
        problem.criterion.sense.AtLeastAsGood (problem.number (row, near)) (far row col))
  | refused (hrefused : ∀ row col,
      (problem.beside far).admissible row (Fin.natAdd cols col) = false)

section
variable (far : Fin rows → Fin extra → K) (row : Fin rows)

@[simp] theorem entry_beside_near (col : Fin cols) :
    (problem.beside far).values.entry row (col.castAdd extra) =
      problem.values.entry row col := by
  simp [beside]

@[simp] theorem number_beside_near (col : Fin cols) :
    (problem.beside far).number (row, col.castAdd extra) = problem.number (row, col) :=
  congrArg Exact.toField (problem.entry_beside_near far row col)

@[simp] theorem number_beside_far (col : Fin extra) :
    (problem.beside far).number (row, Fin.natAdd cols col) = far row col := by
  simp [number, beside, Exact.toField]

@[simp] theorem admissible_beside_near (col : Fin cols) :
    (problem.beside far).admissible row (col.castAdd extra) = problem.admissible row col :=
  congrArg problem.criterion.allows (problem.entry_beside_near far row col)

end

variable [IsStrictOrderedRing K]

theorem size_eq_sum : problem.size =
    ∑ row, ∑ col, if problem.admissible row col then |problem.number (row, col)| else 0 := by
  rw [size_eq_sum_admissible, Finset.sum_filter, Fintype.sum_prod_type]

theorem cost_le_fee (i : Fin (min rows cols)) (j : Fin (max rows cols)) :
    problem.cost i j ≤ problem.fee := by
  rw [cost]
  split
  · rename_i hcell
    have hmem : (i, j) ∈ problem.admissibleCells := problem.mem_admissibleCells.mpr hcell
    exact (le_abs_self _).trans (problem.abs_signedNumber_lt_fee hmem).le
  · exact le_refl _

variable {problem} {far : Fin rows → Fin extra → K}

theorem fee_beside
    (h : ∀ row col, (problem.beside far).admissible row (Fin.natAdd cols col) = false) :
    (problem.beside far).fee = problem.fee := by
  have hsize : (problem.beside far).size = problem.size := by
    simp only [size_eq_sum, Fin.sum_univ_add, h, admissible_beside_near, number_beside_near,
      Bool.false_eq_true, if_false, Finset.sum_const_zero, add_zero]
  rw [fee, fee, hsize]

theorem Hopeless.widens (h : problem.Hopeless far) (hrows : rows ≤ cols) :
    Widens problem.toll (problem.beside far).toll := by
  cases h with
  | dominated hgate hbetter =>
    have hall (row : Fin rows) (col : Fin (cols + extra)) :
        (problem.beside far).admissible row col = true := by
      rw [admissible, Criterion.allows]
      exact congrArg (Option.all _) hgate
    have hnear (row : Fin rows) (col : Fin cols) : problem.admissible row col = true :=
      (problem.admissible_beside_near far row col).symm.trans (hall row (col.castAdd extra))
    constructor
    case near_eq =>
      intro row col
      rw [toll, toll, hall, hnear, number_beside_near]
      rfl
    case far_le =>
      intro row near col
      rw [toll, toll, hall, hnear, number_beside_far]
      exact (Sense.atLeastAsGood_iff _ _ _).mp (hbetter row near col)
  | refused hrefused =>
    constructor
    case near_eq =>
      intro row col
      rw [toll, toll, admissible_beside_near, number_beside_near, fee_beside hrefused]
      rfl
    case far_le =>
      intro row near col
      have htoll : (problem.beside far).toll row (Fin.natAdd cols col) = problem.fee := by
        rw [toll, hrefused, fee_beside hrefused]
        rfl
      rw [htoll, ← problem.cost_cast hrows.not_gt]
      exact problem.cost_le_fee _ _

end LinearAssignment.Problem
