import LinearAssignment.Criterion

/-! The result of an assignment problem, seen from its rows: which column each of them gets. -/
namespace LinearAssignment

structure Assignment (α : Type) where
  mapping : List (Option Nat)
  objective : α
  sense : Sense
  deriving BEq, Repr

namespace Assignment

def empty [Zero α] (rows : Nat) (sense : Sense) : Assignment α :=
  ⟨List.replicate rows none, 0, sense⟩

def numRows (assignment : Assignment α) : Nat := assignment.mapping.length

def numAssigned (assignment : Assignment α) : Nat := assignment.mapping.countP Option.isSome

def pairs (assignment : Assignment α) : List (Nat × Nat) :=
  assignment.mapping.zipIdx.filterMap fun entry => entry.1.map fun col => (entry.2, col)

def columnOf (assignment : Assignment α) (row : Nat) : Option Nat :=
  assignment.mapping[row]?.join

/-- The lowest row that has the column. -/
def rowOf (assignment : Assignment α) (col : Nat) : Option Nat :=
  assignment.mapping.findIdx? (· == some col)

def unassignedRows (assignment : Assignment α) : List Nat :=
  assignment.mapping.zipIdx.filterMap fun entry =>
    if entry.1.isNone then some entry.2 else none

@[simp] theorem numRows_empty [Zero α] (rows : Nat) (sense : Sense) :
    (empty rows sense : Assignment α).numRows = rows := by
  simp [numRows, empty]

theorem columnOf_eq_some {assignment : Assignment α} {row col : Nat} :
    assignment.columnOf row = some col ↔ assignment.mapping[row]? = some (some col) := by
  simp [columnOf, Option.join_eq_some_iff]

theorem rowOf_eq_some {assignment : Assignment α} {row col : Nat} :
    assignment.rowOf col = some row ↔ assignment.columnOf row = some col ∧
      ∀ above, above < row → assignment.columnOf above ≠ some col := by
  rw [rowOf, List.findIdx?_eq_some_iff_getElem, columnOf_eq_some, List.getElem?_eq_some_iff]
  constructor
  · rintro ⟨hrow, hcol, hfirst⟩
    refine ⟨⟨hrow, eq_of_beq hcol⟩, fun above habove hsame => ?_⟩
    obtain ⟨_, hsame⟩ := List.getElem?_eq_some_iff.mp (columnOf_eq_some.mp hsame)
    exact hfirst above habove (beq_iff_eq.mpr hsame)
  · rintro ⟨⟨hrow, hcol⟩, hfirst⟩
    refine ⟨hrow, beq_iff_eq.mpr hcol, fun above habove hsame => hfirst above habove ?_⟩
    exact columnOf_eq_some.mpr (List.getElem?_eq_some_iff.mpr ⟨_, eq_of_beq hsame⟩)

end Assignment
end LinearAssignment
