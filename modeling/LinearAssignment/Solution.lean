import LinearAssignment.Assignment
import LinearAssignment.Problem.Costs
import LinearAssignment.Run

/-! Solved problems, read in the orientation of the caller. A pair that the gate refuses may be
matched in the standard form, where it only costs the penalty; it is not reported. -/
namespace LinearAssignment

structure Solution (α : Type) [Scalar α] (rows cols : Nat) where
  problem : Problem α rows cols
  run : Run α (min rows cols) (max rows cols)

variable [Scalar α]

/-- Runs phases on the standard form until the smaller side of the table is matched. -/
def Problem.solve (problem : Problem α rows cols) : Except Fault (Solution α rows cols) := do
  let costs := problem.costs
  return ⟨problem, ← Run.complete costs (Run.start costs)⟩

theorem Problem.solve_eq_ok {problem : Problem α rows cols}
    {run : Run α (min rows cols) (max rows cols)}
    (h : Run.complete problem.costs (Run.start problem.costs) = .ok run) :
    problem.solve = .ok ⟨problem, run⟩ := by
  simp [solve, h, bind, Except.bind, pure, Except.pure]

namespace Solution

variable (solution : Solution α rows cols)

/-- The matched pairs that may be matched, in the order of the rows of the standard form. -/
def reported : List (Fin rows × Fin cols) :=
  (solution.run.matching.pairs.map fun cell => Problem.locate cell.1 cell.2).filter fun pair =>
    solution.problem.admissible pair.1 pair.2

def objective : α :=
  Scalar.sum <| solution.reported.map fun pair => solution.problem.values.entry pair.1 pair.2

def columnOf (row : Fin rows) : Option (Fin cols) :=
  (solution.reported.find? fun pair => pair.1 == row).map Prod.snd

def assignment : Assignment α where
  mapping := (List.finRange rows).map fun row => (solution.columnOf row).map Fin.val
  objective := solution.objective
  sense := solution.problem.criterion.sense

/-- The total of the potentials as a value. No assignment is better unless a gate is in force. -/
def dualBound : α :=
  solution.problem.criterion.sense.ofCost solution.run.potentials.total

def rowPotentials : Vector α rows :=
  if h : cols < rows then solution.run.potentials.cols.cast (Problem.max_eq_rows h)
  else solution.run.potentials.rows.cast (Problem.min_eq_rows h)

def colPotentials : Vector α cols :=
  if h : cols < rows then solution.run.potentials.rows.cast (Problem.min_eq_cols h)
  else solution.run.potentials.cols.cast (Problem.max_eq_cols h)

def tally : Tally := solution.run.tally

def journal : List (Record α) :=
  .started rows cols solution.problem.criterion.sense solution.problem.transposed ::
    solution.run.trace.map .event ++ [.finished solution.run.tally]

def log (detail : Level) : List (Record α) :=
  solution.journal.filter fun record => detail.includes record.level

@[simp] theorem numRows_assignment : solution.assignment.numRows = rows := by
  simp [Assignment.numRows, assignment]

@[simp] theorem objective_assignment : solution.assignment.objective = solution.objective := rfl

@[simp] theorem sense_assignment :
    solution.assignment.sense = solution.problem.criterion.sense := rfl

end Solution

/-- Solves a problem once it has been accepted. The table may be short and very long all the same,
so there has to be room for a solution. -/
def solveAccepted (accepted : Except Rejection (Problem α rows cols)) :
    Except Failure (Solution α rows cols) :=
  match accepted with
  | .error rejection => .error (.rejected rejection)
  | .ok problem => (do problem.allocate; problem.solve).mapError Failure.faulty

def solveRowMajor (values : Array α) (rows cols : Nat) (criterion : Criterion α) :
    Except Failure (Solution α rows cols) :=
  solveAccepted (Problem.ofRowMajor values rows cols criterion)

def solveGrid (grid : Grid α rows cols) (criterion : Criterion α) :
    Except Failure (Solution α rows cols) :=
  solveAccepted (Problem.ofGrid grid criterion)

def assign (values : Array α) (rows cols : Nat) (sense : Sense) :
    Except Failure (Assignment α) :=
  (solveRowMajor values rows cols (.ofSense sense)).map Solution.assignment

def assignGated (values : Array α) (rows cols : Nat) (sense : Sense) (gate : α) :
    Except Failure (Assignment α) :=
  (solveRowMajor values rows cols ((Criterion.ofSense sense).withGate gate)).map
    Solution.assignment

end LinearAssignment
