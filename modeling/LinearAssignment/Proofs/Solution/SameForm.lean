import LinearAssignment.Proofs.Problem.Exact
import LinearAssignment.Proofs.Problem.SameForm
import LinearAssignment.Solution

/-! Solving problems with the same standard form. One run solves them all, or fails to solve any of
them; where they also lie the same way, nothing that is read off their solutions differs. -/
namespace LinearAssignment

/-- Two computations that come to the same fault, or both to results that are related. -/
inductive SameOutcome (related : β → γ → Prop) : Except ε β → Except ε γ → Prop where
  | error (fault : ε) : SameOutcome related (.error fault) (.error fault)
  | ok (h : related left right) : SameOutcome related (.ok left) (.ok right)

theorem SameOutcome.imp {related related' : β → γ → Prop} {left : Except ε β}
    {right : Except ε γ} (h : SameOutcome related left right)
    (himp : ∀ a b, left = .ok a → right = .ok b → related a b → related' a b) :
    SameOutcome related' left right := by
  cases h with
  | error fault => exact .error fault
  | ok h => exact .ok (himp _ _ rfl rfl h)

theorem SameOutcome.exists_ok {related : β → γ → Prop} {right : Except ε γ}
    (h : SameOutcome related (.ok result) right) : ∃ other, right = .ok other ∧
      related result other := by
  cases h with
  | ok h => exact ⟨_, rfl, h⟩

namespace Solution

variable [Scalar α]

structure SameRun (problem : Problem α rows cols) (other : Problem α rows' cols')
    (h : problem.SameForm other) (solution : Solution α rows cols)
    (solution' : Solution α rows' cols') : Prop where
  problem_eq : solution.problem = problem
  other_eq : solution'.problem = other
  run_eq : solution'.run.cast h.rows_eq h.cols_eq = solution.run

structure Alike (solution other : Solution α rows cols) : Prop where
  assignment_eq : other.assignment = solution.assignment
  dualBound_eq : other.dualBound = solution.dualBound
  rowPotentials_eq : other.rowPotentials = solution.rowPotentials
  colPotentials_eq : other.colPotentials = solution.colPotentials
  tally_eq : other.tally = solution.tally
  journal_eq : other.journal = solution.journal

end Solution

variable [Scalar α]

theorem Problem.solve_eq_map (problem : Problem α rows cols) :
    problem.solve =
      (Run.complete problem.costs (Run.start problem.costs)).map (Solution.mk problem) := by
  cases hrun : Run.complete problem.costs (Run.start problem.costs) with
  | error fault => simp [solve, hrun, bind, Except.bind, Except.map]
  | ok run => exact solve_eq_ok hrun

theorem Problem.SameForm.sameOutcome {problem : Problem α rows cols}
    {other : Problem α rows' cols'} (h : problem.SameForm other) :
    SameOutcome (Solution.SameRun problem other h) problem.solve other.solve := by
  have hrun := Run.complete_cast h.rows_eq h.cols_eq other.costs
  rw [h.costs_eq] at hrun
  rw [solve_eq_map, solve_eq_map, hrun]
  cases Run.complete other.costs (Run.start other.costs) with
  | error fault => exact .error fault
  | ok run => exact .ok ⟨rfl, rfl, rfl⟩

theorem Problem.Agrees.alike {solution other : Solution α rows cols}
    (h : solution.problem.Agrees other.problem) (hrun : other.run = solution.run) :
    solution.Alike other := by
  have hreported : other.reported = solution.reported := by
    rw [Solution.reported, Solution.reported, hrun]
    apply List.filter_congr
    exact fun pair _ => h.admissible_eq pair.1 pair.2
  have hobjective : other.objective = solution.objective := by
    rw [Solution.objective, Solution.objective, hreported]
    congr 1
    apply List.map_congr_left
    exact fun pair hpair => h.entry_eq pair.1 pair.2 (List.mem_filter.mp hpair).2
  constructor
  case assignment_eq =>
    simp only [Solution.assignment, Solution.columnOf, hreported, hobjective, h.sense_eq]
  case dualBound_eq => rw [Solution.dualBound, Solution.dualBound, hrun, h.sense_eq]
  case rowPotentials_eq => rw [Solution.rowPotentials, Solution.rowPotentials, hrun]
  case colPotentials_eq => rw [Solution.colPotentials, Solution.colPotentials, hrun]
  case tally_eq => rw [Solution.tally, Solution.tally, hrun]
  case journal_eq =>
    rw [Solution.journal, Solution.journal, hrun, h.sense_eq]
    rfl

/-- Whatever the numbers are, the values of refused pairs never show: two problems that agree on the
pairs that may be matched come to the same fault, or to solutions that read the same. -/
theorem Problem.refused_never_show {problem other : Problem α rows cols}
    (h : problem.Agrees other) : SameOutcome Solution.Alike problem.solve other.solve := by
  refine h.sameForm.sameOutcome.imp ?_
  rintro solution solution' - - ⟨rfl, rfl, hrun⟩
  exact h.alike hrun

theorem Problem.refused_never_show_three_by_two :
    let problem : Problem (Exact ℚ) 3 2 :=
      ⟨Grid.exact ![![4, 1], ![0, 5], ![7, 3]], Criterion.maximize.withGate (.finite 3),
        fun i j => by simp, fun gate hgate => by cases hgate; rfl⟩
    let other : Problem (Exact ℚ) 3 2 :=
      ⟨Grid.exact ![![4, -900], ![2, 5], ![7, 3]], Criterion.maximize.withGate (.finite 3),
        fun i j => by simp, fun gate hgate => by cases hgate; rfl⟩
    problem.Agrees other ∧ SameOutcome Solution.Alike problem.solve other.solve := by
  intro problem other
  have h : problem.Agrees other := by
    refine ⟨rfl, by decide +kernel, ?_⟩
    decide +kernel
  exact ⟨h, refused_never_show h⟩

end LinearAssignment
