import LinearAssignment.Proofs.Problem.Validation
import LinearAssignment.Proofs.Run.Certified
import LinearAssignment.Proofs.Run.Outcome
import LinearAssignment.Solution

/-! What becomes of an input, whichever way it comes in. It is refused for the first thing that is
wrong with it. If nothing is, and if there is room for a solution, the problem is solved, and the
answer is read off the solution unless a phase goes round in a circle. Machine numbers leave no room
for a table of very many empty lines, and where they overflow a phase may go round in a circle, so
an input with nothing wrong may be left without an answer. -/
namespace LinearAssignment

variable [Scalar α]

/-- An answer about an input. Of inputs that are valid some find no room, and some of the others no
end; all the rest are solved. -/
structure Guarded (values : Array α) (rows cols : Nat) (criterion : Criterion α)
    (answer : Except Failure β) (read : Solution α rows cols → β) : Prop where
  rejected_iff : ∀ rejection, answer = .error (.rejected rejection) ↔
    Problem.FirstDefect values rows cols criterion rejection
  overflow_iff : answer = .error (.faulty .capacityOverflow) ↔
    Problem.Valid values rows cols criterion ∧ Problem.fits α rows cols = false
  solved_iff : (∃ problem, Problem.ofRowMajor values rows cols criterion = .ok problem ∧
    answer = (problem.solve.map read).mapError .faulty) ↔
      Problem.Valid values rows cols criterion ∧ Problem.fits α rows cols = true
  ok_iff : (∃ result, answer = .ok result) ↔
    (Problem.Valid values rows cols criterion ∧ Problem.fits α rows cols = true) ∧
      answer ≠ .error (.faulty .cyclicPath)
  /-- Where each root sees its slacks below the sentinel, every phase comes to an end. -/
  ne_cyclicPath : (∀ problem, Problem.ofRowMajor values rows cols criterion = .ok problem →
    Run.SlacksBelowInfinity problem.costs) → answer ≠ .error (.faulty .cyclicPath)

theorem Problem.exists_solve_eq_ok {problem : Problem α rows cols}
    (hslack : Run.SlacksBelowInfinity problem.costs) :
    ∃ solution, problem.solve = .ok solution := by
  obtain ⟨run, hrun, -⟩ := Run.exists_progress min_le_max hslack (le_refl _)
  exact ⟨_, solve_eq_ok hrun⟩

theorem Problem.fault_of_solve {problem : Problem α rows cols}
    (h : problem.solve = .error fault) : fault = .cyclicPath := by
  have hcomplete : Run.complete problem.costs (Run.start problem.costs) = .error fault := by
    cases hrun : Run.complete problem.costs (Run.start problem.costs) with
    | ok run => cases (solve_eq_ok hrun).symm.trans h
    | error found => simpa [solve, hrun, bind, Except.bind] using h
  exact (Run.steady_start problem.costs).fault_of_phases min_le_max hcomplete

theorem Problem.solve_ne_overflow (problem : Problem α rows cols)
    (read : Solution α rows cols → β) :
    (problem.solve.map read).mapError Failure.faulty ≠ .error (.faulty .capacityOverflow) := by
  intro hanswer
  cases hsolve : problem.solve with
  | error fault =>
    obtain rfl := fault_of_solve hsolve
    rw [hsolve] at hanswer
    cases hanswer
  | ok solution =>
    rw [hsolve] at hanswer
    cases hanswer

inductive Outcome (values : Array α) (rows cols : Nat) (criterion : Criterion α)
    (read : Solution α rows cols → β) : Except Failure β → Prop where
  | rejected (hproblem : Problem.ofRowMajor values rows cols criterion = .error rejection) :
      Outcome values rows cols criterion read (.error (.rejected rejection))
  | overflow (hproblem : Problem.ofRowMajor values rows cols criterion = .ok problem)
      (hfits : Problem.fits α rows cols = false) :
      Outcome values rows cols criterion read (.error (.faulty .capacityOverflow))
  | cyclic (hproblem : Problem.ofRowMajor values rows cols criterion = .ok problem)
      (hfits : Problem.fits α rows cols = true) (hsolve : problem.solve = .error .cyclicPath) :
      Outcome values rows cols criterion read (.error (.faulty .cyclicPath))
  | solved (hproblem : Problem.ofRowMajor values rows cols criterion = .ok problem)
      (hfits : Problem.fits α rows cols = true) (hsolve : problem.solve = .ok solution) :
      Outcome values rows cols criterion read (.ok (read solution))

section
variable {values : Array α} {criterion : Criterion α}

theorem outcome (values : Array α) (rows cols : Nat) (criterion : Criterion α)
    (read : Solution α rows cols → β) :
    Outcome values rows cols criterion read
      ((solveRowMajor values rows cols criterion).map read) := by
  unfold solveRowMajor solveAccepted
  cases hproblem : Problem.ofRowMajor values rows cols criterion with
  | error rejection => exact .rejected hproblem
  | ok problem =>
    simp only [Problem.allocate]
    cases hfits : Problem.fits α rows cols with
    | false => exact .overflow hproblem hfits
    | true =>
      cases hsolve : problem.solve with
      | error fault =>
        obtain rfl := Problem.fault_of_solve hsolve
        exact .cyclic hproblem hfits hsolve
      | ok solution => exact .solved hproblem hfits hsolve

theorem Outcome.guarded {read : Solution α rows cols → β} {answer : Except Failure β}
    (h : Outcome values rows cols criterion read answer) :
    Guarded values rows cols criterion answer read := by
  have hjudged := Problem.judged values rows cols criterion
  cases h with
  | rejected hproblem =>
    constructor <;> simp [← hjudged.rejected_iff, ← hjudged.accepted_iff, hproblem]
  | overflow hproblem hfits =>
    constructor
    case solved_iff =>
      constructor
      · rintro ⟨problem, -, hanswer⟩
        exact absurd hanswer.symm (problem.solve_ne_overflow read)
      · rintro ⟨-, hroom⟩
        cases hfits.symm.trans hroom
    all_goals simp [← hjudged.rejected_iff, ← hjudged.accepted_iff, hproblem, hfits]
  | cyclic hproblem hfits hsolve =>
    constructor
    case ne_cyclicPath =>
      intro hslack
      obtain ⟨solution, hsolved⟩ := Problem.exists_solve_eq_ok (hslack _ hproblem)
      cases hsolve.symm.trans hsolved
    all_goals
      simp [← hjudged.rejected_iff, ← hjudged.accepted_iff, hproblem, hfits, hsolve, Except.map,
        Except.mapError]
  | solved hproblem hfits hsolve =>
    constructor <;>
      simp [← hjudged.rejected_iff, ← hjudged.accepted_iff, hproblem, hfits, hsolve, Except.map,
        Except.mapError]

theorem guarded (values : Array α) (rows cols : Nat) (criterion : Criterion α)
    (read : Solution α rows cols → β) :
    Guarded values rows cols criterion ((solveRowMajor values rows cols criterion).map read)
      read :=
  (outcome values rows cols criterion read).guarded

end

theorem exists_ok_iff_valid_exact [Field K] [LinearOrder K] [IsStrictOrderedRing K]
    (values : Array (Exact K)) (rows cols : Nat) (criterion : Criterion (Exact K))
    (read : Solution (Exact K) rows cols → β) :
    (∃ result, (solveRowMajor values rows cols criterion).map read = .ok result) ↔
      Problem.Valid values rows cols criterion := by
  have hguarded := guarded values rows cols criterion read
  have hends := hguarded.ne_cyclicPath fun problem _ => by
    rw [problem.costs_eq_exact]
    exact Run.slacksBelowInfinity_exact problem.cost min_le_max
  rw [hguarded.ok_iff]
  exact ⟨fun h => h.1.1, fun hvalid => ⟨⟨hvalid, rfl⟩, hends⟩⟩

/-- Whichever way an input comes in, it is refused for its first defect. Without a defect it is
solved, or there is no room for a solution, or a phase goes round in a circle, which none does as
long as slacks stay below the sentinel; in exact arithmetic a valid input always has an answer. -/
theorem answers_guarded (rows cols : Nat) :
    (∀ {α : Type} [Scalar α] (values : Array α),
      (∀ criterion, Problem.Judged values rows cols criterion ∧
        Guarded values rows cols criterion (solveRowMajor values rows cols criterion) id ∧
        ∀ grid : Grid α rows cols, rows * cols < Problem.cellLimit →
          values.size = rows * cols →
          (∀ row col, values[row.val * cols + col.val]? = some (grid.entry row col)) →
            solveGrid grid criterion = solveRowMajor values rows cols criterion) ∧
      (∀ sense, Guarded values rows cols (.ofSense sense) (assign values rows cols sense)
        Solution.assignment) ∧
      ∀ sense gate, Guarded values rows cols ((Criterion.ofSense sense).withGate gate)
        (assignGated values rows cols sense gate) Solution.assignment) ∧
    ∀ {K : Type} [Field K] [LinearOrder K] [IsStrictOrderedRing K] (values : Array (Exact K))
      (sense : Sense),
      ((∃ assignment, assign values rows cols sense = .ok assignment) ↔
        Problem.Valid values rows cols (.ofSense sense)) ∧
      ∀ gate, (∃ assignment, assignGated values rows cols sense gate = .ok assignment) ↔
        Problem.Valid values rows cols ((Criterion.ofSense sense).withGate gate) := by
  constructor
  · intro α _ values
    refine ⟨fun criterion => ?_, fun sense => ?_, fun sense gate => ?_⟩
    · have hjudged := Problem.judged values rows cols criterion
      have hguarded := guarded values rows cols criterion id
      rw [Except.map_id] at hguarded
      refine ⟨hjudged, hguarded, fun grid hfits hsize hgrid => ?_⟩
      exact congrArg solveAccepted (hjudged.ofGrid_eq grid hfits hsize hgrid)
    · exact guarded values rows cols _ Solution.assignment
    · exact guarded values rows cols _ Solution.assignment
  · intro K _ _ _ values sense
    exact ⟨exists_ok_iff_valid_exact values rows cols _ Solution.assignment,
      fun gate => exists_ok_iff_valid_exact values rows cols _ Solution.assignment⟩

theorem answers_guarded_two_by_three :
    let flawed : Array (Exact ℚ) :=
      #[.finite 4, .finite 1, .finite 3, .infinity, .finite 0, .infinity]
    let sound : Array (Exact ℚ) :=
      #[.finite 4, .finite 1, .finite 3, .finite 2, .finite 0, .finite 5]
    let grid : Grid (Exact ℚ) 2 3 := Grid.exact ![![4, 1, 3], ![2, 0, 5]]
    assignGated flawed 4294967296 4294967296 .minimize .infinity =
        .error (.rejected (.dimensionOverflow 4294967296 4294967296)) ∧
      assignGated flawed 3 3 .minimize .infinity = .error (.rejected (.lengthMismatch 9 6)) ∧
      assignGated flawed 2 3 .minimize .infinity = .error (.rejected (.nonFiniteValue 1 0)) ∧
      assignGated sound 2 3 .minimize .infinity = .error (.rejected .nonFiniteGate) ∧
      (∃ assignment, assign sound 2 3 .minimize = .ok assignment) ∧
      Problem.ofGrid grid .minimize = Problem.ofRowMajor sound 2 3 .minimize ∧
      solveGrid grid .minimize = solveRowMajor sound 2 3 .minimize := by
  intro flawed sound grid
  have hflawed (rows cols : Nat) :=
    (((answers_guarded rows cols).1 flawed).2.2 .minimize .infinity).rejected_iff
  have hsound := (((answers_guarded 2 3).1 sound).2.2 .minimize .infinity).rejected_iff
  have hfinite : ∀ value ∈ sound, Scalar.isFinite value = true := by decide
  have hfirst : Problem.FirstNonFinite flawed 2 3 1 0 :=
    ⟨by decide, by decide, by decide, by decide⟩
  have hgrid : ∀ (row : Fin 2) (col : Fin 3),
      sound[row.val * 3 + col.val]? = some (grid.entry row col) := by decide +kernel
  obtain ⟨hjudged, -, hsame⟩ := ((answers_guarded 2 3).1 sound).1 .minimize
  refine ⟨(hflawed _ _ _).mpr ?_, (hflawed _ _ _).mpr ?_, (hflawed _ _ _).mpr ?_,
    (hsound _).mpr ?_, ?_, ?_, ?_⟩
  · exact .dimensionOverflow (by decide)
  · exact .lengthMismatch (by decide) (by decide)
  · exact .nonFiniteValue (by decide) rfl hfirst
  · exact .nonFiniteGate (by decide) rfl hfinite rfl rfl
  · exact ((answers_guarded 2 3).2 sound .minimize).1.mpr
      ⟨by decide, rfl, hfinite, fun gate hgate => by cases hgate⟩
  · exact hjudged.ofGrid_eq grid (by decide) rfl hgrid
  · exact hsame grid (by decide) rfl hgrid

/-- Two inputs in binary64 with nothing wrong and without an answer: a table of no rows that is too
wide for any list with an entry for each column, and finite values whose slacks overflow, after
which a path that a stale parent leads along never comes to a free row. -/
theorem valid_without_answer :
    let wide : Nat := 18446744073709551615
    let steep : Array Float :=
      #[1.7e308, -1.7e308, 1e308, 1, 0, 0, 1e308, -1e308, 1e308]
    (Problem.Valid (#[] : Array Float) 0 wide (.ofSense .minimize) ∧
      assign (#[] : Array Float) 0 wide .minimize = .error (.faulty .capacityOverflow)) ∧
    Problem.Valid steep 3 3 (.ofSense .minimize) ∧
      assign steep 3 3 .minimize = .error (.faulty .cyclicPath) := by
  intro wide steep
  have hwide : Problem.Valid (#[] : Array Float) 0 wide (.ofSense .minimize) :=
    ⟨by decide, by decide, by simp, fun gate hgate => by cases hgate⟩
  have hsteep : Problem.Valid steep 3 3 (.ofSense .minimize) :=
    ⟨by decide, by decide, by decide +kernel, fun gate hgate => by cases hgate⟩
  have hfailed : (assign steep 3 3 .minimize).toOption.isNone = true := by decide +kernel
  refine ⟨⟨hwide, (guarded _ 0 wide _ Solution.assignment).overflow_iff.mpr ⟨hwide, by decide⟩⟩,
    hsteep, ?_⟩
  by_contra hends
  obtain ⟨assignment, hassign⟩ :=
    (guarded steep 3 3 _ Solution.assignment).ok_iff.mpr ⟨⟨hsteep, by decide⟩, hends⟩
  have hfailed' : (Except.ok assignment : Except Failure _).toOption.isNone = true :=
    hassign ▸ hfailed
  cases hfailed'

end LinearAssignment
