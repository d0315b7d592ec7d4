import LinearAssignment.Proofs.Problem.SameForm

/-! Tables laid on their side. The standard form makes the smaller side its rows, so as long as the
sides differ a table and its transpose have one standard form; only the pairs that its cells stand
for are the other way round. A square table is left alone, and its transpose has another form. -/
namespace LinearAssignment

def Grid.transpose (grid : Grid α m n) : Grid α n m := ofFn fun j i => grid.entry i j

@[simp] theorem Grid.entry_transpose (grid : Grid α m n) (j : Fin n) (i : Fin m) :
    grid.transpose.entry j i = grid.entry i j := by
  simp [transpose]

namespace Problem

variable [Scalar α] (problem : Problem α rows cols)

theorem isFinite_transpose (col : Fin cols) (row : Fin rows) :
    Scalar.isFinite (problem.values.transpose.entry col row) = true := by
  rw [Grid.entry_transpose]
  exact problem.values_finite row col

def transpose : Problem α cols rows where
  values := problem.values.transpose
  criterion := problem.criterion
  values_finite := problem.isFinite_transpose
  gate_finite := problem.gate_finite

theorem admissible_transpose (col : Fin cols) (row : Fin rows) :
    problem.transpose.admissible col row = problem.admissible row col :=
  congrArg problem.criterion.allows (problem.values.entry_transpose col row)

theorem transpose_transpose : problem.transpose.transpose = problem := by
  have hvalues : problem.values.transpose.transpose = problem.values := by
    ext i j
    rw [Grid.entry_transpose, Grid.entry_transpose]
  cases problem
  simp only [transpose, hvalues]

theorem locate_swap (h : rows ≠ cols) (i : Fin (min cols rows)) (j : Fin (max cols rows)) :
    (locate i j : Fin cols × Fin rows) =
      (locate (i.cast (Nat.min_comm cols rows)) (j.cast (Nat.max_comm cols rows))).swap := by
  rcases Nat.lt_or_gt_of_ne h with hlt | hlt
  · rw [locate_of_lt hlt, locate_of_not_lt (Nat.lt_asymm hlt)]
    rfl
  · rw [locate_of_not_lt (Nat.lt_asymm hlt), locate_of_lt hlt]
    rfl

theorem valueIn_transpose (h : rows ≠ cols) (i : Fin (min cols rows)) (j : Fin (max cols rows)) :
    problem.transpose.valueIn i j =
      problem.valueIn (i.cast (Nat.min_comm cols rows)) (j.cast (Nat.max_comm cols rows)) := by
  rw [valueIn, locate_swap h]
  exact problem.values.entry_transpose _ _

theorem sameForm_transpose (h : rows ≠ cols) : problem.SameForm problem.transpose where
  rows_eq := Nat.min_comm cols rows
  cols_eq := Nat.max_comm cols rows
  admissibleIn_eq i j := congrArg problem.criterion.allows (problem.valueIn_transpose h i j)
  costIn_eq i j _ := congrArg problem.criterion.sense.toCost (problem.valueIn_transpose h i j)

end Problem
end LinearAssignment
