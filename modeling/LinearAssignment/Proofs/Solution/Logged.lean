import LinearAssignment.Proofs.Problem.Exact
import LinearAssignment.Proofs.Run.Trace
import LinearAssignment.Solution

/-! The log of a solution. At full detail it holds the trace of the run between its two outer
records, and in exact arithmetic this trace accounts for the counters, the matched columns and the
total of the potentials. -/
namespace LinearAssignment

namespace Solution

theorem log_trace [Scalar α] (solution : Solution α rows cols) :
    solution.log .trace = solution.journal :=
  List.filter_eq_self.mpr fun _ _ => rfl

theorem log_debug [Scalar α] (solution : Solution α rows cols) :
    solution.log .debug =
      [.started rows cols solution.problem.criterion.sense solution.problem.transposed,
        .finished solution.tally] := by
  have hevents : (solution.run.trace.map Record.event).filter
      (fun record => Level.debug.includes record.level) = [] := by
    rw [List.filter_eq_nil_iff]
    intro record hrecord
    obtain ⟨event, -, rfl⟩ := List.mem_map.mp hrecord
    exact Bool.false_ne_true
  simp only [log, journal, List.cons_append, List.filter_cons, List.filter_append, hevents]
  rfl

/-- A log that tells what the solution is: only its outer records are for debugging, the trace
between them agrees with the counters and the matching, and its steps add up to what the total of
the potentials has gained. -/
structure Logged [Field K] [LinearOrder K] (solution : Solution (Exact K) rows cols) : Prop where
  log_trace : solution.log .trace =
    .started rows cols solution.problem.criterion.sense solution.problem.transposed ::
      solution.run.trace.map .event ++ [.finished solution.tally]
  log_debug : solution.log .debug =
    [.started rows cols solution.problem.criterion.sense solution.problem.transposed,
      .finished solution.tally]
  told : Run.Told (min rows cols) solution.run
  gained : ∃ first last, (Potentials.initial solution.problem.costs).total = .finite first ∧
    solution.run.potentials.total = .finite last ∧
      Scalar.sum solution.run.tracedSteps = .finite (last - first)

end Solution

variable [Field K] [LinearOrder K] [IsStrictOrderedRing K]

/-- In exact arithmetic the log of every solved problem tells what the solution is. -/
theorem Problem.exists_logged (problem : Problem (Exact K) rows cols) :
    ∃ solution, problem.solve = .ok solution ∧ solution.problem = problem ∧ solution.Logged := by
  have hslack := Run.slacksBelowInfinity_exact problem.cost min_le_max
  obtain ⟨run, hrun, -, htold⟩ := Run.exists_told min_le_max hslack (le_refl (min rows cols))
  obtain ⟨run', hrun', -, ⟨u, v, hlast, -⟩, hgained⟩ :=
    Run.exists_gained problem.cost min_le_max (le_refl (min rows cols))
  cases hrun.symm.trans hrun'
  obtain ⟨u₀, v₀, hfirst, -⟩ := certificate_initial problem.cost min_le_max
  rw [Run.Gained, hlast, hfirst, Potentials.total_exact, Potentials.total_exact] at hgained
  rw [← problem.costs_eq_exact] at hrun hfirst
  refine ⟨⟨problem, run⟩, solve_eq_ok hrun, rfl, Solution.log_trace _, Solution.log_debug _, htold,
    _, _, ?_, ?_, Exact.eq_finite_sub hgained⟩
  · rw [hfirst, Potentials.total_exact]
  · rw [hlast, Potentials.total_exact]

theorem Problem.exists_logged_three_by_two :
    let problem : Problem (Exact ℚ) 3 2 :=
      ⟨Grid.exact ![![1, 1], ![2, 5], ![4, 6]], .minimize, fun i j => by simp,
        fun gate hgate => by cases hgate⟩
    ∃ solution, problem.solve = .ok solution ∧ solution.problem = problem ∧ solution.Logged := by
  intro problem
  exact problem.exists_logged

/-- Both columns are cheapest in the first row. The second one takes it over after a step of one,
which is what the first one pays more in another row. -/
example :
    let problem : Problem (Exact ℚ) 3 2 :=
      ⟨Grid.exact ![![1, 1], ![2, 5], ![4, 6]], .minimize, fun i j => by simp,
        fun gate hgate => by cases hgate⟩
    (problem.solve.toOption.map fun solution => solution.log .trace) =
      some [.started 3 2 .minimize true, .event (.matched 0 0 1),
        .event (.dualStep 1 (.finite 1)), .event (.matched 1 1 2), .finished ⟨2, 1, 3⟩] := by
  decide +kernel

end LinearAssignment
