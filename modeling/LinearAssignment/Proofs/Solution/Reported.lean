import LinearAssignment.Solution
import LinearAssignment.Proofs.Matching.Pairs
import LinearAssignment.Proofs.Problem.Orientation

/-! The pairs that a solution reports: the admissible ones among the matched pairs, each row and
each column once, listed in the order of the rows of the standard form. The assignment holds these
pairs and no others. -/
namespace LinearAssignment

open Problem

structure Assignment.Reports (assignment : Assignment α) (pairs : Finset (Fin rows × Fin cols)) :
    Prop where
  numRows_eq : assignment.numRows = rows
  columnOf_iff : ∀ row col, assignment.columnOf row = some col ↔
    ∃ pair ∈ pairs, pair.1.val = row ∧ pair.2.val = col
  numAssigned_eq : assignment.numAssigned = pairs.card

theorem Assignment.Reports.rowOf_eq_some {assignment : Assignment α}
    {pairs : Finset (Fin rows × Fin cols)} (h : assignment.Reports pairs) (hp : IsPairing pairs)
    {row col : Nat} :
    assignment.rowOf col = some row ↔ assignment.columnOf row = some col := by
  rw [Assignment.rowOf_eq_some]
  refine and_iff_left_of_imp fun hrow above habove hsame => ?_
  obtain ⟨pair, hpair, rfl, hcol⟩ := (h.columnOf_iff _ _).mp hrow
  obtain ⟨other, hother, rfl, hcol'⟩ := (h.columnOf_iff _ _).mp hsame
  have heq := hp.eq_of_snd pair hpair other hother (Fin.ext (hcol.trans hcol'.symm))
  rw [heq] at habove
  exact Nat.lt_irrefl _ habove

namespace Solution

variable [Scalar α] {solution : Solution α rows cols}

theorem mem_reported {pair : Fin rows × Fin cols} :
    pair ∈ solution.reported ↔
      solution.run.matching.columnOf (innerRow pair) = some (innerCol pair) ∧
        solution.problem.admissible pair.1 pair.2 = true := by
  rw [reported, List.mem_filter, List.mem_map]
  apply and_congr_left'
  constructor
  · rintro ⟨cell, hcell, rfl⟩
    rw [innerRow_locate, innerCol_locate]
    exact Matching.mem_pairs.mp hcell
  · intro hpair
    exact ⟨(innerRow pair, innerCol pair), Matching.mem_pairs.mpr hpair, locate_inner pair⟩

theorem pairwise_reported (solution : Solution α rows cols) :
    solution.reported.Pairwise fun pair other => innerRow pair < innerRow other := by
  apply List.Pairwise.filter
  rw [List.pairwise_map]
  refine solution.run.matching.pairwise_pairs.imp fun hlt => ?_
  rwa [innerRow_locate, innerRow_locate]

theorem nodup_reported (solution : Solution α rows cols) : solution.reported.Nodup :=
  solution.pairwise_reported.imp fun hlt heq => absurd (congrArg innerRow heq) (ne_of_lt hlt)

theorem toFinset_reported (solution : Solution α rows cols) :
    solution.reported.toFinset =
      (solution.problem.kept solution.run.matching.pairs.toFinset).map
        (orientation rows cols).toEmbedding := by
  ext pair
  rw [List.mem_toFinset, mem_reported, Finset.mem_map_equiv, mem_kept, List.mem_toFinset,
    orientation_symm_apply, Matching.mem_pairs, admissibleIn_eq, locate_inner]

theorem isPairing_reported (hm : solution.run.matching.Consistent) :
    IsPairing solution.reported.toFinset := by
  rw [toFinset_reported]
  exact isPairing_locate (hm.isPairing.subset (kept_subset _ _))

theorem eq_of_mem_reported (hm : solution.run.matching.Consistent)
    {pair other : Fin rows × Fin cols} (hpair : pair ∈ solution.reported)
    (hother : other ∈ solution.reported) (h : pair.1 = other.1) : pair = other :=
  (isPairing_reported hm).eq_of_fst pair (List.mem_toFinset.mpr hpair) other
    (List.mem_toFinset.mpr hother) h

theorem columnOf_eq_some (hm : solution.run.matching.Consistent) {row : Fin rows}
    {col : Fin cols} : solution.columnOf row = some col ↔ (row, col) ∈ solution.reported := by
  unfold columnOf
  constructor
  · intro h
    obtain ⟨pair, hfind, rfl⟩ := Option.map_eq_some_iff.mp h
    have hrow : pair.1 = row := by simpa using List.find?_some hfind
    rw [← hrow]
    exact List.mem_of_find?_eq_some hfind
  · intro h
    cases hfind : solution.reported.find? fun pair => pair.1 == row with
    | none => simpa using List.find?_eq_none.mp hfind _ h
    | some pair =>
      have hrow : pair.1 = row := by simpa using List.find?_some hfind
      have hpair := List.mem_of_find?_eq_some hfind
      have heq : pair = (row, col) := eq_of_mem_reported hm hpair h hrow
      rw [heq]
      rfl

theorem columnOf_assignment (solution : Solution α rows cols) (row : Fin rows) :
    solution.assignment.columnOf row.val = (solution.columnOf row).map Fin.val := by
  simp [Assignment.columnOf, assignment]

theorem numAssigned_assignment (hm : solution.run.matching.Consistent) :
    solution.assignment.numAssigned = solution.reported.length := by
  have hrows : (solution.reported.map Prod.fst).Nodup := by
    apply solution.nodup_reported.map_on
    intro pair hpair other hother heq
    exact eq_of_mem_reported hm hpair hother heq
  have hperm : ((List.finRange rows).filter fun row => (solution.columnOf row).isSome).Perm
      (solution.reported.map Prod.fst) := by
    rw [List.perm_ext_iff_of_nodup ((List.nodup_finRange rows).filter _) hrows]
    intro row
    simp [Option.isSome_iff_exists, columnOf_eq_some hm]
  have hcount : solution.assignment.numAssigned =
      ((List.finRange rows).filter fun row => (solution.columnOf row).isSome).length := by
    rw [Assignment.numAssigned, assignment, List.countP_map, List.countP_eq_length_filter]
    congr 2
    funext row
    simp
  rw [hcount, hperm.length_eq, List.length_map]

theorem reports_assignment (hm : solution.run.matching.Consistent) :
    solution.assignment.Reports solution.reported.toFinset where
  numRows_eq := solution.numRows_assignment
  columnOf_iff := by
    intro row col
    by_cases hrow : row < rows
    · have hcolumn := solution.columnOf_assignment ⟨row, hrow⟩
      rw [hcolumn, Option.map_eq_some_iff]
      constructor
      · rintro ⟨j, hj, rfl⟩
        exact ⟨_, List.mem_toFinset.mpr ((columnOf_eq_some hm).mp hj), rfl, rfl⟩
      · rintro ⟨⟨i, j⟩, hpair, rfl, rfl⟩
        exact ⟨j, (columnOf_eq_some hm).mpr (List.mem_toFinset.mp hpair), rfl⟩
    · constructor
      · intro hcol
        have hlt : row < solution.assignment.numRows := by
          obtain ⟨hlt, -⟩ := List.getElem?_eq_some_iff.mp (Assignment.columnOf_eq_some.mp hcol)
          exact hlt
        rw [numRows_assignment] at hlt
        exact absurd hlt hrow
      · rintro ⟨pair, -, rfl, -⟩
        exact absurd pair.1.isLt hrow
  numAssigned_eq := by
    rw [numAssigned_assignment hm, List.toFinset_card_of_nodup solution.nodup_reported]

theorem admissible_of_gate_none (h : solution.problem.criterion.gate = none) (row : Fin rows)
    (col : Fin cols) : solution.problem.admissible row col = true := by
  simp [admissible, Criterion.allows, h]

theorem reported_of_gate_none (h : solution.problem.criterion.gate = none) :
    solution.reported = solution.run.matching.pairs.map fun cell => locate cell.1 cell.2 := by
  rw [reported, List.filter_eq_self]
  exact fun pair _ => admissible_of_gate_none h pair.1 pair.2

theorem length_reported_of_gate_none (h : solution.problem.criterion.gate = none) :
    solution.reported.length = solution.run.matching.pairs.length := by
  rw [reported_of_gate_none h, List.length_map]

theorem mapping_congr {other : Solution α rows cols} (h : other.reported = solution.reported) :
    other.assignment.mapping = solution.assignment.mapping := by
  simp only [assignment, columnOf, h]

end Solution
end LinearAssignment
