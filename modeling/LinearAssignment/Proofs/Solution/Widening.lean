import LinearAssignment.Proofs.Problem.Widening
import LinearAssignment.Proofs.Run.Widening
import LinearAssignment.Proofs.Solution.Certified

/-! The solution of a problem does not change when columns that nobody could want are written on the
right of its table. -/
namespace LinearAssignment

namespace Solution

structure Widened [Scalar α] (solution : Solution α rows cols)
    (other : Solution α rows (cols + extra)) : Prop where
  assignment_eq : other.assignment = solution.assignment
  tally_eq : other.tally = solution.tally
  rowPotentials_eq : other.rowPotentials = solution.rowPotentials
  col_near : ∀ col : Fin cols,
    other.colPotentials.get (col.castAdd extra) = solution.colPotentials.get col
  col_far : ∀ col : Fin extra, other.colPotentials.get (Fin.natAdd cols col) = 0

section
variable [Scalar α] (solution : Solution α rows cols) (h : ¬cols < rows)

def upright : Run α rows cols :=
  solution.run.cast (Problem.min_eq_rows h) (Problem.max_eq_cols h)

theorem reported_of_not_lt : solution.reported =
    (solution.upright h).matching.pairs.filter fun pair =>
      solution.problem.admissible pair.1 pair.2 := by
  rw [reported, upright, Run.pairs_cast]
  congr 1
  exact List.map_congr_left fun cell _ => Problem.locate_of_not_lt h cell.1 cell.2

theorem rowPotentials_eq_upright :
    solution.rowPotentials = (solution.upright h).potentials.rows := by
  rw [rowPotentials, dif_neg h, upright, Run.rows_cast]

theorem colPotentials_eq_upright :
    solution.colPotentials = (solution.upright h).potentials.cols := by
  rw [colPotentials, dif_neg h, upright, Run.cols_cast]

end

variable [Field K] [LinearOrder K] {solution : Solution (Exact K) rows cols}
  {other : Solution (Exact K) rows (cols + extra)} {far : Fin rows → Fin extra → K}

theorem reported_widened (hproblem : other.problem = solution.problem.beside far)
    (h : ¬cols < rows) (h' : ¬cols + extra < rows)
    (hrun : (solution.upright h).Widened (other.upright h')) :
    other.reported = solution.reported.map fun pair => (pair.1, pair.2.castAdd extra) := by
  rw [reported_of_not_lt other h', reported_of_not_lt solution h, hrun.matching_eq,
    Matching.pairs_widen, List.filter_map, hproblem]
  congr 2
  funext pair
  exact solution.problem.admissible_beside_near far pair.1 pair.2

theorem assignment_widened (hproblem : other.problem = solution.problem.beside far)
    (hreported : other.reported =
      solution.reported.map fun pair => (pair.1, pair.2.castAdd extra)) :
    other.assignment = solution.assignment := by
  have hcolumn (row : Fin rows) :
      (other.columnOf row).map Fin.val = (solution.columnOf row).map Fin.val := by
    rw [columnOf, columnOf, hreported, List.find?_map, Option.map_map, Option.map_map,
      Option.map_map]
    rfl
  have hobjective : other.objective = solution.objective := by
    rw [objective, objective, hreported, List.map_map, hproblem]
    congr 1
    apply List.map_congr_left
    exact fun pair _ => solution.problem.entry_beside_near far pair.1 pair.2
  simp only [assignment, hcolumn, hobjective, hproblem]
  rfl

theorem widened_of_upright (hproblem : other.problem = solution.problem.beside far)
    (h : ¬cols < rows) (h' : ¬cols + extra < rows)
    (hrun : (solution.upright h).Widened (other.upright h')) : solution.Widened other := by
  have hpotentials := hrun.potentials_eq
  constructor
  case assignment_eq => exact assignment_widened hproblem (reported_widened hproblem h h' hrun)
  case tally_eq =>
    have htally := hrun.tally_eq
    rwa [upright, upright, Run.tally_cast, Run.tally_cast] at htally
  case rowPotentials_eq =>
    rw [rowPotentials_eq_upright other h', rowPotentials_eq_upright solution h, hpotentials]
    exact ext_get fun row => Potentials.row_widen extra _ row
  case col_near =>
    intro col
    rw [colPotentials_eq_upright other h', colPotentials_eq_upright solution h, hpotentials]
    exact Potentials.col_widen_near extra _ col
  case col_far =>
    intro col
    rw [colPotentials_eq_upright other h', hpotentials]
    exact Potentials.col_widen_far _ col

end Solution

variable [Field K] [LinearOrder K] [IsStrictOrderedRing K]

/-- Columns that nobody could want, written on the right of a table with no more rows than columns,
never show: not in a tie, and not in the work done. -/
theorem Problem.hopeless_never_show (problem : Problem (Exact K) rows cols)
    (hrows : rows ≤ cols) {far : Fin rows → Fin extra → K} (h : problem.Hopeless far) :
    ∃ solution other, problem.solve = .ok solution ∧
      (problem.beside far).solve = .ok other ∧ solution.Widened other := by
  have hflat : ¬cols < rows := hrows.not_gt
  have hflat' : ¬cols + extra < rows := (Nat.le_add_right_of_le hrows).not_gt
  obtain ⟨run, wide, hrun, hwide, hwidened⟩ :=
    Run.exists_phases_widened (h.widens hrows) hrows (le_refl rows)
  rw [← problem.costs_cast hflat] at hrun
  rw [← (problem.beside far).costs_cast hflat'] at hwide
  obtain ⟨inner, hinner, rfl⟩ := Run.complete_of_cast _ _ hrun
  obtain ⟨inner', hinner', rfl⟩ := Run.complete_of_cast _ _ hwide
  exact ⟨⟨problem, inner⟩, ⟨problem.beside far, inner'⟩, solve_eq_ok hinner, solve_eq_ok hinner',
    Solution.widened_of_upright rfl hflat hflat' hwidened⟩

theorem Problem.hopeless_never_show_two_by_two :
    let problem : Problem (Exact ℚ) 2 2 :=
      ⟨Grid.exact ![![4, 1], ![5, 1]], .minimize, fun i j => by simp,
        fun gate hgate => by cases hgate⟩
    let worst : Fin 2 → Fin 1 → ℚ := ![![4], ![5]]
    let gated : Problem (Exact ℚ) 2 2 :=
      ⟨Grid.exact ![![4, 1], ![5, 3]], Criterion.maximize.withGate (.finite 3),
        fun i j => by simp, fun gate hgate => by cases hgate; rfl⟩
    let below : Fin 2 → Fin 2 → ℚ := ![![2, -7], ![0, 2]]
    2 ≤ 2 ∧ problem.Hopeless worst ∧ gated.Hopeless below ∧
      (∃ solution other, problem.solve = .ok solution ∧
        (problem.beside worst).solve = .ok other ∧ solution.Widened other) ∧
      ∃ solution other, gated.solve = .ok solution ∧
        (gated.beside below).solve = .ok other ∧ solution.Widened other := by
  intro problem worst gated below
  have hrows : 2 ≤ 2 := le_refl 2
  have hbetter : ∀ row near col, problem.number (row, near) ≤ worst row col := by
    decide +kernel
  have hworst : problem.Hopeless worst := .dominated rfl hbetter
  have hbelow : gated.Hopeless below := .refused (by decide +kernel)
  exact ⟨hrows, hworst, hbelow, problem.hopeless_never_show hrows hworst,
    gated.hopeless_never_show hrows hbelow⟩

end LinearAssignment
