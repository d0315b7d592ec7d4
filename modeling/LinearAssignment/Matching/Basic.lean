import LinearAssignment.Entries
import LinearAssignment.Fault

/-! Partial matchings between the rows and the columns of a table, stored from both sides so that a
partner is found at once from either, with a counter beside them. The two sides are inverse, and the
counter is the number of pairs, in every matching that is grown from the empty one along alternating
paths. -/
namespace LinearAssignment

structure Matching (m n : Nat) where
  byRow : Vector (Option (Fin n)) m
  byColumn : Vector (Option (Fin m)) n
  /-- How many pairs have been added, one by each path that was flipped. -/
  matched : Nat
  deriving DecidableEq

namespace Matching

def columnOf (matching : Matching m n) (row : Fin m) : Option (Fin n) := matching.byRow.get row

def rowOf (matching : Matching m n) (col : Fin n) : Option (Fin m) := matching.byColumn.get col

def size (matching : Matching m n) : Nat := matching.matched

@[ext] theorem ext {left right : Matching m n}
    (hrows : ∀ row, left.columnOf row = right.columnOf row)
    (hcols : ∀ col, left.rowOf col = right.rowOf col)
    (hsize : left.size = right.size) : left = right := by
  cases left with
  | mk byRow byColumn matched =>
    cases right with
    | mk byRow' byColumn' matched' =>
      congr 1
      · exact ext_get hrows
      · exact ext_get hcols

def empty (m n : Nat) : Matching m n := ⟨Vector.replicate m none, Vector.replicate n none, 0⟩

@[simp] theorem columnOf_empty (row : Fin m) : (empty m n).columnOf row = none := by
  simp [empty, columnOf]

@[simp] theorem rowOf_empty (col : Fin n) : (empty m n).rowOf col = none := by
  simp [empty, rowOf]

@[simp] theorem size_empty : (empty m n).size = 0 := rfl

def freeRows (matching : Matching m n) : List (Fin m) :=
  (List.finRange m).filter fun row => (matching.columnOf row).isNone

def pairs (matching : Matching m n) : List (Fin m × Fin n) :=
  (List.finRange m).filterMap fun row => (matching.columnOf row).map fun col => (row, col)

def isEmpty (matching : Matching m n) : Bool := matching.size == 0

def isComplete (matching : Matching m n) : Bool := matching.size == m

@[simp] theorem mem_freeRows {matching : Matching m n} {row : Fin m} :
    row ∈ matching.freeRows ↔ matching.columnOf row = none := by
  simp [freeRows]

theorem head_freeRows_eq_some {matching : Matching m n} {row : Fin m} :
    matching.freeRows.head? = some row ↔
      matching.columnOf row = none ∧ ∀ i, i < row → matching.columnOf i ≠ none := by
  rw [freeRows, List.head?_filter, List.find?_eq_some_iff_getElem]
  constructor
  · rintro ⟨hfree, index, hindex, hrow, hbelow⟩
    refine ⟨Option.isNone_iff_eq_none.mp hfree, fun i hi => ?_⟩
    rw [List.getElem_finRange] at hrow
    have hlt : i.val < index := by
      rw [← hrow] at hi
      exact hi
    simpa [Option.isSome_iff_ne_none] using hbelow i.val hlt
  · rintro ⟨hfree, hbelow⟩
    refine ⟨Option.isNone_iff_eq_none.mpr hfree, row.val, by simp, by simp, fun i hi => ?_⟩
    simpa [Option.isSome_iff_ne_none] using hbelow ⟨i, Nat.lt_trans hi row.isLt⟩ hi

@[simp] theorem mem_pairs {matching : Matching m n} {row : Fin m} {col : Fin n} :
    (row, col) ∈ matching.pairs ↔ matching.columnOf row = some col := by
  simp [pairs]

def columnAt (matching : Matching m n) (row : Nat) : Except Fault (Option (Fin n)) :=
  (checkIndex m row).map matching.columnOf

def rowAt (matching : Matching m n) (col : Nat) : Except Fault (Option (Fin m)) :=
  (checkIndex n col).map matching.rowOf

@[simp] theorem columnAt_val (matching : Matching m n) (row : Fin m) :
    matching.columnAt row.val = .ok (matching.columnOf row) := by
  simp [columnAt, Except.map]

@[simp] theorem rowAt_val (matching : Matching m n) (col : Fin n) :
    matching.rowAt col.val = .ok (matching.rowOf col) := by
  simp [rowAt, Except.map]

end Matching
end LinearAssignment
