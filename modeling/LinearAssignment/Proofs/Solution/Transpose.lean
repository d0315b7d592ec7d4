import LinearAssignment.Proofs.Problem.Transpose
import LinearAssignment.Proofs.Run.Consistent
import LinearAssignment.Proofs.Solution.Certified
import LinearAssignment.Proofs.Solution.SameForm

/-! The solution of a table laid on its side. As long as the sides differ it comes from the same
run, so it is the old one read the other way round, to the order in which the values are added. Of
a square table this need not be so, since ties may be broken in another way; what stays the same is
how many pairs there are and what they are worth, because both are best. -/
namespace LinearAssignment

namespace Solution

/-- What is read off the one solution is what is read off the other with the sides exchanged. -/
structure Turned [Scalar α] (solution : Solution α rows cols) (other : Solution α cols rows) :
    Prop where
  columnOf_iff : ∀ row col, other.assignment.columnOf col = some row ↔
    solution.assignment.columnOf row = some col
  mapping_eq : other.assignment.mapping = (List.range cols).map solution.assignment.rowOf
  reported_eq : other.reported = solution.reported.map Prod.swap
  objective_eq : other.assignment.objective = solution.assignment.objective
  dualBound_eq : other.dualBound = solution.dualBound
  tally_eq : other.tally = solution.tally
  rowPotentials_eq : other.rowPotentials = solution.colPotentials
  colPotentials_eq : other.colPotentials = solution.rowPotentials

section
variable [Scalar α] {problem : Problem α rows cols} {solution : Solution α rows cols}
  {other : Solution α cols rows}

theorem objective_transpose (hproblem : other.problem = solution.problem.transpose)
    (hreported : other.reported = solution.reported.map Prod.swap) :
    other.objective = solution.objective := by
  rw [objective, objective, hreported, List.map_map, hproblem]
  congr 1
  apply List.map_congr_left
  exact fun pair _ => solution.problem.values.entry_transpose pair.2 pair.1

theorem columnOf_transpose (hm : solution.run.matching.Consistent)
    (hm' : other.run.matching.Consistent)
    (hreported : other.reported = solution.reported.map Prod.swap) (row col : Nat) :
    other.assignment.columnOf col = some row ↔ solution.assignment.columnOf row = some col := by
  rw [(reports_assignment hm).columnOf_iff, (reports_assignment hm').columnOf_iff, hreported]
  constructor
  · rintro ⟨pair, hpair, rfl, rfl⟩
    obtain ⟨old, hold, rfl⟩ := List.mem_map.mp (List.mem_toFinset.mp hpair)
    exact ⟨old, List.mem_toFinset.mpr hold, rfl, rfl⟩
  · rintro ⟨old, hold, rfl, rfl⟩
    have hpair := List.mem_map_of_mem (f := Prod.swap) (List.mem_toFinset.mp hold)
    exact ⟨old.swap, List.mem_toFinset.mpr hpair, rfl, rfl⟩

theorem mapping_transpose (hm : solution.run.matching.Consistent)
    (hcolumnOf : ∀ row col, other.assignment.columnOf col = some row ↔
      solution.assignment.columnOf row = some col) :
    other.assignment.mapping = (List.range cols).map solution.assignment.rowOf := by
  rw [← List.map_coe_finRange_eq_range, List.map_map, assignment]
  apply List.map_congr_left
  intro col _
  rw [← columnOf_assignment]
  ext1 row
  rw [hcolumnOf]
  exact ((reports_assignment hm).rowOf_eq_some (isPairing_reported hm)).symm

theorem SameRun.reported_transpose (hsides : rows ≠ cols)
    (h : SameRun problem problem.transpose (problem.sameForm_transpose hsides) solution other) :
    other.reported = solution.reported.map Prod.swap := by
  have hpairs := Run.pairs_cast (Nat.min_comm cols rows) (Nat.max_comm cols rows) other.run
  rw [h.run_eq] at hpairs
  have hlocate : (other.run.matching.pairs.map fun cell => Problem.locate cell.1 cell.2) =
      (solution.run.matching.pairs.map fun cell =>
        (Problem.locate cell.1 cell.2 : Fin rows × Fin cols)).map Prod.swap := by
    rw [hpairs, List.map_map, List.map_map]
    exact List.map_congr_left fun cell _ => Problem.locate_swap hsides cell.1 cell.2
  rw [reported, reported, hlocate, List.filter_map, h.problem_eq, h.other_eq]
  congr 2
  funext pair
  exact problem.admissible_transpose pair.2 pair.1

theorem SameRun.potentials_transpose (hsides : rows ≠ cols)
    (h : SameRun problem problem.transpose (problem.sameForm_transpose hsides) solution other) :
    other.rowPotentials = solution.colPotentials ∧
      other.colPotentials = solution.rowPotentials := by
  have hrows := Run.rows_cast (Nat.min_comm cols rows) (Nat.max_comm cols rows) other.run
  have hcols := Run.cols_cast (Nat.min_comm cols rows) (Nat.max_comm cols rows) other.run
  rw [h.run_eq] at hrows hcols
  rcases Nat.lt_or_gt_of_ne hsides with hlt | hlt
  · simp only [rowPotentials, colPotentials, dif_pos hlt, dif_neg (Nat.lt_asymm hlt), hrows,
      hcols, Vector.cast_cast, and_self]
  · simp only [rowPotentials, colPotentials, dif_pos hlt, dif_neg (Nat.lt_asymm hlt), hrows,
      hcols, Vector.cast_cast, and_self]

theorem SameRun.turned (hsides : rows ≠ cols)
    (h : SameRun problem problem.transpose (problem.sameForm_transpose hsides) solution other)
    (hm : solution.run.matching.Consistent) (hm' : other.run.matching.Consistent) :
    solution.Turned other := by
  have hproblem : other.problem = solution.problem.transpose := by rw [h.other_eq, h.problem_eq]
  have hreported := h.reported_transpose hsides
  have hcolumnOf := columnOf_transpose hm hm' hreported
  obtain ⟨hrows, hcols⟩ := h.potentials_transpose hsides
  constructor
  case columnOf_iff => exact hcolumnOf
  case mapping_eq => exact mapping_transpose hm hcolumnOf
  case reported_eq => exact hreported
  case objective_eq => exact objective_transpose hproblem hreported
  case dualBound_eq =>
    rw [dualBound, dualBound, ← h.run_eq, Run.total_cast, hproblem]
    rfl
  case tally_eq => rw [tally, tally, ← h.run_eq, Run.tally_cast]
  case rowPotentials_eq => exact hrows
  case colPotentials_eq => exact hcols

end

variable [Field K] [LinearOrder K]

theorem isPairing_swap {pairs : Finset (Fin m × Fin n)} (h : IsPairing pairs) :
    IsPairing (pairs.map (Equiv.prodComm (Fin m) (Fin n)).toEmbedding) :=
  h.map _ (fun _ _ => Or.inr) fun _ _ => Or.inl

theorem Certified.transpose_best [IsStrictOrderedRing K] {solution : Solution (Exact K) rows cols}
    {other : Solution (Exact K) cols rows} (h : solution.Certified) (h' : other.Certified)
    (hproblem : other.problem = solution.problem.transpose) :
    solution.reported.toFinset.card ≤ other.reported.toFinset.card ∧
      (solution.reported.toFinset.card = other.reported.toFinset.card →
        solution.problem.criterion.sense.AtLeastAsGood
          (∑ pair ∈ other.reported.toFinset, other.problem.number pair)
          (∑ pair ∈ solution.reported.toFinset, solution.problem.number pair)) := by
  have hnumber (pair : Fin rows × Fin cols) :
      other.problem.number pair.swap = solution.problem.number pair := by
    rw [hproblem]
    exact congrArg Exact.toField (solution.problem.values.entry_transpose pair.2 pair.1)
  have hadmissible : ∀ pair ∈ solution.reported.toFinset.map (Equiv.prodComm _ _).toEmbedding,
      other.problem.admissible pair.1 pair.2 = true := by
    intro pair hpair
    obtain ⟨old, hold, rfl⟩ := Finset.mem_map.mp hpair
    rw [hproblem]
    exact (solution.problem.admissible_transpose old.2 old.1).trans
      (mem_reported.mp (List.mem_toFinset.mp hold)).2
  have hbest := h'.reported_best (isPairing_swap (isPairing_reported h.progress.consistent))
    hadmissible
  rw [Finset.card_map, Finset.sum_map] at hbest
  simp only [Equiv.coe_toEmbedding, Equiv.prodComm_apply, hnumber] at hbest
  rwa [hproblem] at hbest ⊢

theorem Certified.transpose_eq [IsStrictOrderedRing K] {solution : Solution (Exact K) rows cols}
    {other : Solution (Exact K) cols rows} (h : solution.Certified) (h' : other.Certified)
    (hproblem : other.problem = solution.problem.transpose) :
    other.assignment.objective = solution.assignment.objective ∧
      other.assignment.numAssigned = solution.assignment.numAssigned := by
  have hback : solution.problem = other.problem.transpose := by
    rw [hproblem, Problem.transpose_transpose]
  have hsense : other.problem.criterion.sense = solution.problem.criterion.sense :=
    congrArg (fun problem => problem.criterion.sense) hproblem
  obtain ⟨hle, hbest⟩ := h.transpose_best h' hproblem
  obtain ⟨hle', hbest'⟩ := h'.transpose_best h hback
  have hcard := Nat.le_antisymm hle hle'
  rw [hsense] at hbest'
  have htotal := (hbest' hcard.symm).antisymm (hbest hcard)
  constructor
  · rw [objective_assignment, objective_assignment, objective_eq_sum, objective_eq_sum, htotal]
  · rw [(reports_assignment h.progress.consistent).numAssigned_eq,
      (reports_assignment h'.progress.consistent).numAssigned_eq, hcard]

end Solution

theorem Problem.consistent_of_solve [Scalar α] {problem : Problem α rows cols}
    {solution : Solution α rows cols} (h : problem.solve = .ok solution) :
    solution.run.matching.Consistent := by
  rw [solve_eq_map] at h
  obtain ⟨run, hrun, rfl⟩ := map_eq_ok.mp h
  exact Run.consistent_of_phases (Matching.consistent_empty _ _) hrun

/-- Whatever the numbers are, a table whose sides differ and its transpose come to the same fault,
or to solutions that are each other turned. A square table and its transpose have solutions of the
same size and worth. -/
theorem Problem.solve_transpose :
    (∀ {α : Type} [Scalar α] {rows cols : Nat} (problem : Problem α rows cols), rows ≠ cols →
      SameOutcome Solution.Turned problem.solve problem.transpose.solve) ∧
    ∀ {K : Type} [Field K] [LinearOrder K] [IsStrictOrderedRing K] {n : Nat}
      (problem : Problem (Exact K) n n),
      ∃ solution other, problem.solve = .ok solution ∧ problem.transpose.solve = .ok other ∧
        other.assignment.objective = solution.assignment.objective ∧
        other.assignment.numAssigned = solution.assignment.numAssigned := by
  constructor
  · intro α _ rows cols problem hsides
    refine (problem.sameForm_transpose hsides).sameOutcome.imp ?_
    intro solution other hsolve hsolve' hrun
    exact hrun.turned hsides (consistent_of_solve hsolve) (consistent_of_solve hsolve')
  · intro K _ _ _ n problem
    obtain ⟨solution, hsolve, hproblem, h⟩ := problem.exists_certified
    obtain ⟨other, hsolve', hproblem', h'⟩ := problem.transpose.exists_certified
    have heq := h.transpose_eq h' (by rw [hproblem', hproblem])
    exact ⟨solution, other, hsolve, hsolve', heq⟩

theorem Problem.solve_transpose_two_by_three :
    let problem : Problem (Exact ℚ) 2 3 :=
      ⟨Grid.exact ![![4, 1, 6], ![0, 5, 7]], Criterion.maximize.withGate (.finite 5),
        fun i j => by simp, fun gate hgate => by cases hgate; rfl⟩
    let square : Problem (Exact ℚ) 2 2 :=
      ⟨Grid.exact ![![1, 2], ![3, 4]], .minimize, fun i j => by simp,
        fun gate hgate => by cases hgate⟩
    2 ≠ 3 ∧ SameOutcome Solution.Turned problem.solve problem.transpose.solve ∧
      ∃ solution other, square.solve = .ok solution ∧ square.transpose.solve = .ok other ∧
        other.assignment.objective = solution.assignment.objective ∧
        other.assignment.numAssigned = solution.assignment.numAssigned := by
  intro problem square
  have hsides : 2 ≠ 3 := by decide
  exact ⟨hsides, solve_transpose.1 problem hsides, solve_transpose.2 square⟩

end LinearAssignment
