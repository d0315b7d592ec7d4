import LinearAssignment.Problem.Costs
import LinearAssignment.Proofs.Run.Cast
import Mathlib.Data.List.Basic

/-! Problems with the same standard form. The values of refused pairs have no part in it: such a
pair costs the penalty, and what the penalty exceeds is added up without them. So it is enough that
two problems admit the same cells and have the same costs there, whichever side of each table has
become the rows. -/
namespace LinearAssignment.Problem

variable [Scalar α] {problem : Problem α rows cols} {other : Problem α rows' cols'}

/-- The standard forms have the same size, and in it the same cells may be matched, at the same
costs. -/
structure SameForm (problem : Problem α rows cols) (other : Problem α rows' cols') : Prop where
  rows_eq : min rows' cols' = min rows cols
  cols_eq : max rows' cols' = max rows cols
  admissibleIn_eq : ∀ i j, other.admissibleIn i j =
    problem.admissibleIn (i.cast rows_eq) (j.cast cols_eq)
  costIn_eq : ∀ i j, other.admissibleIn i j = true →
    other.costIn i j = problem.costIn (i.cast rows_eq) (j.cast cols_eq)

namespace SameForm

theorem spread_eq (h : problem.SameForm other) : other.spread = problem.spread := by
  have hfilter : (Grid.cellsByColumn (min rows cols) (max rows cols)).filter
      (fun cell => problem.admissibleIn cell.1 cell.2) =
        ((Grid.cellsByColumn (min rows' cols') (max rows' cols')).filter fun cell =>
          other.admissibleIn cell.1 cell.2).map fun cell =>
            (cell.1.cast h.rows_eq, cell.2.cast h.cols_eq) := by
    rw [← Grid.map_cellsByColumn h.rows_eq h.cols_eq, List.filter_map]
    congr 2
    funext cell
    exact (h.admissibleIn_eq cell.1 cell.2).symm
  rw [spread, spread, hfilter, List.map_map]
  congr 1
  apply List.map_congr_left
  intro cell hcell
  exact congrArg Scalar.abs (h.costIn_eq cell.1 cell.2 (List.mem_filter.mp hcell).2)

theorem costs_eq (h : problem.SameForm other) :
    other.costs.cast h.rows_eq h.cols_eq = problem.costs := by
  have hpenalty : other.penalty = problem.penalty := by rw [penalty, penalty, h.spread_eq]
  ext i j
  have hadmissible : other.admissibleIn (i.cast h.rows_eq.symm) (j.cast h.cols_eq.symm) =
      problem.admissibleIn i j := h.admissibleIn_eq _ _
  rw [Grid.entry_cast, entry_costs, entry_costs, hpenalty, hadmissible]
  split
  · rename_i hcell
    exact h.costIn_eq _ _ (hadmissible.trans hcell)
  · rfl

end SameForm

/-- The same pairs may be matched, for the same values. Nothing is said of the other pairs, nor of
what refuses them. -/
structure Agrees (problem other : Problem α rows cols) : Prop where
  sense_eq : other.criterion.sense = problem.criterion.sense
  admissible_eq : ∀ row col, other.admissible row col = problem.admissible row col
  entry_eq : ∀ row col, problem.admissible row col = true →
    other.values.entry row col = problem.values.entry row col

theorem Agrees.sameForm {problem other : Problem α rows cols} (h : problem.Agrees other) :
    problem.SameForm other where
  rows_eq := rfl
  cols_eq := rfl
  admissibleIn_eq i j := h.admissible_eq (locate i j).1 (locate i j).2
  costIn_eq i j hcell := by
    have hadmissible : problem.admissible (locate i j).1 (locate i j).2 = true :=
      (h.admissible_eq _ _).symm.trans hcell
    rw [costIn, valueIn, h.sense_eq, h.entry_eq _ _ hadmissible]
    rfl

end LinearAssignment.Problem
