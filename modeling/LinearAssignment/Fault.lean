/-! Faults of lookups, of path flips that callers steer by hand, and of allocations. A fault names
its cause; the wording is in one place. -/
namespace LinearAssignment

inductive Fault where
  | outsideGrid
  | outsideList (size index : Nat)
  | rowMatched
  | columnMatched
  | noColumnLeft
  /-- The parents of an alternating path lead round in a circle. -/
  | cyclicPath
  /-- A list would have been longer than any allocation. -/
  | capacityOverflow
  deriving DecidableEq, Repr

def Fault.message : Fault → String
  | .outsideGrid => "Matrix index out of bounds."
  | .outsideList size index => s!"index out of bounds: the len is {size} but the index is {index}"
  | .rowMatched => "augmenting from a matched row"
  | .columnMatched => "augmenting into a matched column"
  | .noColumnLeft => "fewer visited columns than internal columns"
  | .cyclicPath => "augmenting along a cyclic path"
  | .capacityOverflow => "capacity overflow"

def checkIndex (size index : Nat) : Except Fault (Fin size) :=
  if h : index < size then .ok ⟨index, h⟩ else .error (.outsideList size index)

@[simp] theorem checkIndex_val (index : Fin size) : checkIndex size index.val = .ok index := by
  simp [checkIndex]

theorem checkIndex_of_lt (h : index < size) : checkIndex size index = .ok ⟨index, h⟩ := by
  simp [checkIndex, h]

theorem checkIndex_of_le (h : size ≤ index) :
    checkIndex size index = .error (.outsideList size index) := by
  simp [checkIndex, Nat.not_lt.mpr h]

end LinearAssignment
