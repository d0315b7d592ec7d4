import LinearAssignment.Problem.Basic

/-! The standard form of a problem: a table of costs with at most as many rows as columns, of which
the least total is sought. A taller table is laid on its side, a greatest total is sought as the
least total of negated values, and a pair that the gate refuses costs the penalty, which exceeds
whatever the admissible pairs could trade. -/
namespace LinearAssignment.Problem

variable [Scalar α] (problem : Problem α rows cols)

def transposed (_ : Problem α rows cols) : Bool := cols < rows

theorem min_eq_cols (h : cols < rows) : min rows cols = cols := Nat.min_eq_right (Nat.le_of_lt h)

theorem max_eq_rows (h : cols < rows) : max rows cols = rows := Nat.max_eq_left (Nat.le_of_lt h)

theorem min_eq_rows (h : ¬cols < rows) : min rows cols = rows := Nat.min_eq_left (Nat.not_lt.mp h)

theorem max_eq_cols (h : ¬cols < rows) : max rows cols = cols := Nat.max_eq_right (Nat.not_lt.mp h)

/-- The pair of the table that a cell of the standard form stands for. -/
def locate (i : Fin (min rows cols)) (j : Fin (max rows cols)) : Fin rows × Fin cols :=
  if h : cols < rows then (j.cast (max_eq_rows h), i.cast (min_eq_cols h))
  else (i.cast (min_eq_rows h), j.cast (max_eq_cols h))

theorem locate_of_lt (h : cols < rows) (i : Fin (min rows cols)) (j : Fin (max rows cols)) :
    locate i j = (j.cast (max_eq_rows h), i.cast (min_eq_cols h)) := by
  simp [locate, h]

theorem locate_of_not_lt (h : ¬cols < rows) (i : Fin (min rows cols)) (j : Fin (max rows cols)) :
    locate i j = (i.cast (min_eq_rows h), j.cast (max_eq_cols h)) := by
  simp [locate, h]

def valueIn (i : Fin (min rows cols)) (j : Fin (max rows cols)) : α :=
  problem.values.entry (locate i j).1 (locate i j).2

def admissibleIn (i : Fin (min rows cols)) (j : Fin (max rows cols)) : Bool :=
  problem.criterion.allows (problem.valueIn i j)

def costIn (i : Fin (min rows cols)) (j : Fin (max rows cols)) : α :=
  problem.criterion.sense.toCost (problem.valueIn i j)

/-- The total size of the admissible costs, added column after column of the standard form. -/
def spread : α :=
  Scalar.sum <| ((Grid.cellsByColumn (min rows cols) (max rows cols)).filter fun cell =>
    problem.admissibleIn cell.1 cell.2).map fun cell =>
      Scalar.abs (problem.costIn cell.1 cell.2)

/-- What a refused pair costs: one more than the gap between any two totals of admissible costs. -/
def penalty : α := 1 + problem.spread + problem.spread

def costs : Grid α (min rows cols) (max rows cols) :=
  let penalty := problem.penalty
  Grid.ofFn fun i j => if problem.admissibleIn i j then problem.costIn i j else penalty

theorem entry_costs (i : Fin (min rows cols)) (j : Fin (max rows cols)) :
    problem.costs.entry i j =
      if problem.admissibleIn i j then problem.costIn i j else problem.penalty := by
  simp [costs]

theorem entry_costs_of_admissibleIn {i : Fin (min rows cols)} {j : Fin (max rows cols)}
    (h : problem.admissibleIn i j = true) : problem.costs.entry i j = problem.costIn i j := by
  simp [entry_costs, h]

theorem entry_costs_of_refused {i : Fin (min rows cols)} {j : Fin (max rows cols)}
    (h : problem.admissibleIn i j = false) : problem.costs.entry i j = problem.penalty := by
  simp [entry_costs, h]

theorem admissibleIn_eq (i : Fin (min rows cols)) (j : Fin (max rows cols)) :
    problem.admissibleIn i j = problem.admissible (locate i j).1 (locate i j).2 := rfl

end LinearAssignment.Problem
