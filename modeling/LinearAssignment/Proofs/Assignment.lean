import LinearAssignment.Assignment
import Mathlib

/-! The views of an assignment. Each of them goes through the mapping on its own, and what they say
agrees for every mapping: its columns may come up twice or lie beyond any table. -/
namespace LinearAssignment.Assignment

/-- The rows of the pairs and the unassigned rows, each in ascending order, share out all rows. A
pair is in the list exactly if its row has its column, and the row of a column is the first that has
it. -/
structure Coherent (assignment : Assignment α) : Prop where
  pairs_ascending : (assignment.pairs.map Prod.fst).Pairwise (· < ·)
  unassignedRows_ascending : assignment.unassignedRows.Pairwise (· < ·)
  disjoint : List.Disjoint (assignment.pairs.map Prod.fst) assignment.unassignedRows
  mem_either_iff : ∀ row, row ∈ assignment.pairs.map Prod.fst ∨ row ∈ assignment.unassignedRows ↔
    row < assignment.numRows
  numAssigned_eq : assignment.numAssigned = assignment.pairs.length
  mem_pairs_iff : ∀ row col, (row, col) ∈ assignment.pairs ↔ assignment.columnOf row = some col
  columnOf_beyond : ∀ row, assignment.numRows ≤ row → assignment.columnOf row = none
  rowOf_eq_some_iff : ∀ row col, assignment.rowOf col = some row ↔
    IsLeast {row | assignment.columnOf row = some col} row
  rowOf_eq_none_iff : ∀ col, assignment.rowOf col = none ↔
    ∀ row, assignment.columnOf row ≠ some col

variable (assignment : Assignment α)

theorem columnOf_of_le {row : Nat} (h : assignment.numRows ≤ row) :
    assignment.columnOf row = none := by
  rw [columnOf, List.getElem?_eq_none h]
  rfl

theorem lt_numRows_of_columnOf {row col : Nat} (h : assignment.columnOf row = some col) :
    row < assignment.numRows := by
  by_contra hrow
  rw [columnOf_of_le assignment (Nat.le_of_not_lt hrow)] at h
  cases h

theorem zipIdx_mapping : assignment.mapping.zipIdx =
    (List.range assignment.numRows).map fun row => (assignment.columnOf row, row) := by
  apply List.ext_getElem
  · simp [numRows]
  · intro row hrow _
    have hlt : row < assignment.mapping.length := by simpa using hrow
    simp [columnOf, hlt]

theorem mapping_eq : assignment.mapping =
    (List.range assignment.numRows).map assignment.columnOf := by
  have hfst := congrArg (List.map Prod.fst) assignment.zipIdx_mapping
  rwa [List.zipIdx_map_fst, List.map_map] at hfst

theorem pairs_eq : assignment.pairs =
    (List.range assignment.numRows).filterMap fun row =>
      (assignment.columnOf row).map fun col => (row, col) := by
  rw [pairs, zipIdx_mapping, List.filterMap_map]
  rfl

theorem unassignedRows_eq : assignment.unassignedRows =
    (List.range assignment.numRows).filter fun row => (assignment.columnOf row).isNone := by
  rw [unassignedRows, zipIdx_mapping, List.filterMap_map, ← List.filterMap_eq_filter]
  apply List.filterMap_congr
  intro row _
  simp [Option.guard]

theorem map_fst_pairs : assignment.pairs.map Prod.fst =
    (List.range assignment.numRows).filter fun row => (assignment.columnOf row).isSome := by
  rw [pairs_eq, List.map_filterMap, ← List.filterMap_eq_filter]
  apply List.filterMap_congr
  intro row _
  cases hcol : assignment.columnOf row <;> simp [Option.guard, hcol]

theorem mem_pairs {row col : Nat} :
    (row, col) ∈ assignment.pairs ↔ assignment.columnOf row = some col := by
  rw [pairs_eq, List.mem_filterMap]
  constructor
  · rintro ⟨row', -, hpair⟩
    obtain ⟨col', hcol, heq⟩ := Option.map_eq_some_iff.mp hpair
    cases heq
    exact hcol
  · intro hcol
    exact ⟨row, List.mem_range.mpr (assignment.lt_numRows_of_columnOf hcol), by simp [hcol]⟩

theorem numAssigned_eq_length : assignment.numAssigned = assignment.pairs.length := by
  have hrows := congrArg List.length assignment.map_fst_pairs
  rw [List.length_map] at hrows
  rw [hrows, numAssigned, mapping_eq, List.countP_map, List.countP_eq_length_filter]
  rfl

theorem rowOf_eq_some_iff_isLeast {row col : Nat} : assignment.rowOf col = some row ↔
    IsLeast {row | assignment.columnOf row = some col} row := by
  rw [rowOf_eq_some]
  apply and_congr_right'
  constructor
  · intro hfirst other hother
    exact Nat.le_of_not_lt fun habove => hfirst other habove hother
  · intro hleast above habove hsame
    exact Nat.not_lt.mpr (hleast hsame) habove

theorem rowOf_eq_none {col : Nat} :
    assignment.rowOf col = none ↔ ∀ row, assignment.columnOf row ≠ some col := by
  rw [rowOf, List.findIdx?_eq_none_iff]
  constructor
  · intro hnone row hcol
    have hmem := List.mem_of_getElem? (columnOf_eq_some.mp hcol)
    simpa using hnone _ hmem
  · intro hnone entry hentry
    obtain ⟨row, hrow⟩ := List.mem_iff_getElem?.mp hentry
    rw [beq_eq_false_iff_ne]
    rintro rfl
    exact hnone row (columnOf_eq_some.mpr hrow)

theorem coherent : assignment.Coherent where
  pairs_ascending := by
    rw [map_fst_pairs]
    exact List.pairwise_lt_range.filter _
  unassignedRows_ascending := by
    rw [unassignedRows_eq]
    exact List.pairwise_lt_range.filter _
  disjoint := by
    rw [map_fst_pairs, unassignedRows_eq]
    intro row hassigned hunassigned
    have hsome := (List.mem_filter.mp hassigned).2
    have hnone := (List.mem_filter.mp hunassigned).2
    rw [Option.isNone_iff_eq_none] at hnone
    simp [hnone] at hsome
  mem_either_iff := by
    intro row
    rw [map_fst_pairs, unassignedRows_eq, List.mem_filter, List.mem_filter, List.mem_range]
    cases assignment.columnOf row <;> simp
  numAssigned_eq := assignment.numAssigned_eq_length
  mem_pairs_iff := fun _ _ => assignment.mem_pairs
  columnOf_beyond := fun _ => assignment.columnOf_of_le
  rowOf_eq_some_iff := fun _ _ => assignment.rowOf_eq_some_iff_isLeast
  rowOf_eq_none_iff := fun _ => assignment.rowOf_eq_none

end LinearAssignment.Assignment
