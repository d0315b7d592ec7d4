import LinearAssignment.Proofs.Assignment
import LinearAssignment.Proofs.Solution.Certified
import LinearAssignment.Proofs.Solution.Transpose

/-! The views of a reported assignment. In any assignment the first row that has a column is found
from the column; in a reported one no other row has it, so that rows and columns lead to each other.
-/
namespace LinearAssignment

def Assignment.Inverse (assignment : Assignment α) : Prop :=
  ∀ row col, assignment.columnOf row = some col ↔ assignment.rowOf col = some row

theorem Solution.inverse_assignment [Scalar α] {solution : Solution α rows cols}
    (hm : solution.run.matching.Consistent) : solution.assignment.Inverse := by
  intro row col
  exact ((reports_assignment hm).rowOf_eq_some (isPairing_reported hm)).symm

/-- The views of every assignment agree. Whatever the numbers are, rows and columns of a reported
assignment lead to each other, and in exact arithmetic one is reported for every problem. -/
theorem Assignment.views_agree :
    (∀ {α : Type} (assignment : Assignment α), assignment.Coherent) ∧
    (∀ {α : Type} [Scalar α] {rows cols : Nat} (problem : Problem α rows cols)
      (solution : Solution α rows cols), problem.solve = .ok solution →
        solution.assignment.Inverse) ∧
    ∀ {K : Type} [Field K] [LinearOrder K] [IsStrictOrderedRing K] {rows cols : Nat}
      (problem : Problem (Exact K) rows cols), ∃ solution, problem.solve = .ok solution ∧
        solution.assignment.Inverse := by
  refine ⟨fun assignment => assignment.coherent, ?_, ?_⟩
  · intro α _ rows cols problem solution hsolve
    exact Solution.inverse_assignment (Problem.consistent_of_solve hsolve)
  · intro K _ _ _ rows cols problem
    obtain ⟨solution, hsolve, -, hcertified⟩ := problem.exists_certified
    exact ⟨solution, hsolve, Solution.inverse_assignment hcertified.progress.consistent⟩

theorem Assignment.views_agree_three_rows :
    let assignment : Assignment ℚ := ⟨[some 7, none, some 7], 0, .minimize⟩
    let problem : Problem (Exact ℚ) 3 2 :=
      ⟨Grid.exact ![![4, 1], ![-2, 0], ![3, 2]], Criterion.maximize.withGate (.finite 1),
        fun i j => by simp, fun gate hgate => by cases hgate; rfl⟩
    (assignment.Coherent ∧ assignment.pairs = [(0, 7), (2, 7)] ∧
      assignment.unassignedRows = [1] ∧ assignment.rowOf 7 = some 0 ∧ ¬assignment.Inverse) ∧
    ∃ solution, problem.solve = .ok solution ∧ solution.assignment.Inverse ∧
      solution.assignment.Coherent := by
  intro assignment problem
  constructor
  · refine ⟨views_agree.1 assignment, rfl, rfl, rfl, fun h => ?_⟩
    cases (h 2 7).mp rfl
  · obtain ⟨solution, hsolve, -⟩ := views_agree.2.2 problem
    exact ⟨solution, hsolve, views_agree.2.1 problem solution hsolve,
      views_agree.1 solution.assignment⟩

end LinearAssignment
