import LinearAssignment.Proofs.Run.Tied
import LinearAssignment.Proofs.Solution.Affine

/-! Problems in which nothing but ties decides. Where every row of the standard form is constant all
complete assignments are equally good, in both senses. The one that is reported is the diagonal of
the table; it is found without a step, but no table of the same size has more columns scanned. -/
namespace LinearAssignment

/-- Rows that do not tell columns apart, or columns that do not tell rows apart in a table that is
taller than wide. -/
structure Problem.Tied [Scalar α] (problem : Problem α rows cols) : Prop where
  row_eq : rows ≤ cols → ∀ i j k, problem.values.entry i j = problem.values.entry i k
  col_eq : cols < rows → ∀ j i k, problem.values.entry i j = problem.values.entry k j

/-- Each row has the column of its own number if there is one. No step was made, and as
many columns were scanned as so many phases can scan. -/
structure Solution.Diagonal [Scalar α] (solution : Solution α rows cols) : Prop where
  mapping_eq : solution.assignment.mapping =
    (List.finRange rows).map fun row => if row.val < min rows cols then some row.val else none
  updates_eq : solution.tally.dualUpdates = 0
  scanned_eq : solution.tally.columnsScanned = min rows cols * (min rows cols + 1) / 2

variable [Field K] [LinearOrder K]

theorem Problem.Tied.cost_eq {problem : Problem (Exact K) rows cols} (h : problem.Tied)
    (hopen : problem.criterion.gate = none) (i : Fin (min rows cols))
    (j k : Fin (max rows cols)) : problem.cost i j = problem.cost i k := by
  rw [cost_of_gate_none hopen, cost_of_gate_none hopen, signedNumber, signedNumber, number, number]
  by_cases hlt : cols < rows
  · rw [locate_of_lt hlt, locate_of_lt hlt]
    congr 2
    exact h.col_eq hlt _ _ _
  · rw [locate_of_not_lt hlt, locate_of_not_lt hlt]
    congr 2
    exact h.row_eq (Nat.not_lt.mp hlt) _ _ _

theorem Problem.Tied.exists_level {problem : Problem (Exact K) rows cols} (h : problem.Tied)
    (hopen : problem.criterion.gate = none) :
    ∃ level : Fin (min rows cols) → K, problem.cost = fun i _ => level i := by
  refine ⟨fun i => problem.cost i ⟨0, Nat.lt_of_lt_of_le i.pos min_le_max⟩, ?_⟩
  funext i j
  exact h.cost_eq hopen i _ _

theorem Run.Diagonal.columnOf_iff_reported {solution : Solution (Exact K) rows cols}
    {level : Fin (min rows cols) → K} (h : Run.Diagonal level (min rows cols) solution.run)
    (hm : solution.run.matching.Consistent) (hopen : solution.problem.criterion.gate = none)
    (row : Fin rows) (col : Fin cols) : solution.columnOf row = some col ↔ row.val = col.val := by
  have hinner : (Problem.innerRow (row, col)).val = (Problem.innerCol (row, col)).val ↔
      row.val = col.val := by
    rw [Problem.innerRow_val, Problem.innerCol_val]
    split
    · exact eq_comm
    · exact Iff.rfl
  rw [Solution.columnOf_eq_some hm, Solution.mem_reported, h.columnOf_iff, hinner]
  constructor
  · exact fun hpair => hpair.1.1
  · exact fun heq => ⟨⟨heq, (Problem.innerRow (row, col)).isLt⟩,
      Solution.admissible_of_gate_none hopen row col⟩

theorem Run.Diagonal.mapping_eq {solution : Solution (Exact K) rows cols}
    {level : Fin (min rows cols) → K} (h : Run.Diagonal level (min rows cols) solution.run)
    (hm : solution.run.matching.Consistent) (hopen : solution.problem.criterion.gate = none) :
    solution.assignment.mapping =
      (List.finRange rows).map fun row =>
        if row.val < min rows cols then some row.val else none := by
  apply List.map_congr_left
  intro row _
  have hcolumn := h.columnOf_iff_reported hm hopen row
  split
  · rename_i hlt
    rw [(hcolumn ⟨row.val, hlt.trans_le (Nat.min_le_right rows cols)⟩).mpr rfl]
    rfl
  · rename_i hnot
    cases hrow : solution.columnOf row with
    | none => rfl
    | some col =>
      have heq := (hcolumn col).mp hrow
      exact absurd (Nat.lt_min.mpr ⟨row.isLt, heq ▸ col.isLt⟩) hnot

/-- In exact arithmetic a problem without a gate whose standard form is constant in every row is
solved by the diagonal. -/
theorem Problem.solve_tied {problem : Problem (Exact K) rows cols}
    (hopen : problem.criterion.gate = none) (htied : problem.Tied) :
    ∃ solution, problem.solve = .ok solution ∧ solution.problem = problem ∧
      solution.Diagonal := by
  obtain ⟨level, hlevel⟩ := htied.exists_level hopen
  obtain ⟨run, hrun, hprogress, hdiagonal⟩ :=
    Run.exists_diagonal level min_le_max (le_refl (min rows cols))
  rw [← hlevel, ← problem.costs_eq_exact] at hrun
  let solution : Solution (Exact K) rows cols := ⟨problem, run⟩
  have hfinal : Run.Diagonal level (min rows cols) solution.run := hdiagonal
  refine ⟨solution, solve_eq_ok hrun, rfl, ?_, hfinal.updates_eq, ?_⟩
  · exact hfinal.mapping_eq hprogress.consistent hopen
  · exact (Nat.div_eq_of_eq_mul_right Nat.two_pos hfinal.scanned_eq.symm).symm

theorem Problem.solve_tied_three_by_two :
    let problem : Problem (Exact ℚ) 3 2 :=
      ⟨Grid.exact ![![5, -2], ![5, -2], ![5, -2]], .ofSense .maximize, fun i j => by simp,
        fun gate hgate => by cases hgate⟩
    problem.criterion.gate = none ∧ problem.Tied ∧
      ∃ solution, problem.solve = .ok solution ∧ solution.problem = problem ∧
        solution.Diagonal := by
  intro problem
  have htied : problem.Tied := ⟨fun h => absurd h (by decide), fun _ => by decide⟩
  exact ⟨rfl, htied, problem.solve_tied rfl htied⟩

end LinearAssignment
