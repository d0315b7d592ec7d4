import LinearAssignment.Matching.Basic

/-! Augmentation flips an alternating path. Each column on the path goes to its parent row, and the
column that this row had before is the next on the path; the first row that had none ends it. The
parents come from the caller, so they may lead out of the table or round in a circle. -/
namespace LinearAssignment.Matching

/-- Gives the column to the row. Former partners keep their entries, and nothing is counted. -/
def pair (matching : Matching m n) (row : Fin m) (col : Fin n) : Matching m n where
  byRow := matching.byRow.set row (some col) row.isLt
  byColumn := matching.byColumn.set col (some row) col.isLt
  matched := matching.matched

@[simp] theorem columnOf_pair (matching : Matching m n) (row i : Fin m) (col : Fin n) :
    (matching.pair row col).columnOf i = if i = row then some col else matching.columnOf i := by
  simp [pair, columnOf]

@[simp] theorem rowOf_pair (matching : Matching m n) (row : Fin m) (col j : Fin n) :
    (matching.pair row col).rowOf j = if j = col then some row else matching.rowOf j := by
  simp [pair, rowOf]

@[simp] theorem size_pair (matching : Matching m n) (row : Fin m) (col : Fin n) :
    (matching.pair row col).size = matching.size := rfl

def countOne (matching : Matching m n) : Matching m n :=
  { matching with matched := matching.matched + 1 }

@[simp] theorem columnOf_countOne (matching : Matching m n) (row : Fin m) :
    matching.countOne.columnOf row = matching.columnOf row := rfl

@[simp] theorem rowOf_countOne (matching : Matching m n) (col : Fin n) :
    matching.countOne.rowOf col = matching.rowOf col := rfl

@[simp] theorem pairs_countOne (matching : Matching m n) :
    matching.countOne.pairs = matching.pairs := rfl

@[simp] theorem size_countOne (matching : Matching m n) :
    matching.countOne.size = matching.size + 1 := rfl

def parentRow (m : Nat) (parent : Array Nat) (col : Nat) : Except Fault (Fin m) :=
  match parent[col]? with
  | none => .error (.outsideList parent.size col)
  | some row => checkIndex m row

def flip (parent : Array Nat) : Nat → Fin n → Matching m n → Except Fault (Matching m n)
  | 0, _, _ => .error .cyclicPath
  | steps + 1, col, matching =>
    match parentRow m parent col.val with
    | .error fault => .error fault
    | .ok row =>
      match matching.columnOf row with
      | none => .ok (matching.pair row col)
      | some released => flip parent steps released (matching.pair row col)

/-- Flips the path from a free column to a free row, and counts the pair that this adds. A path that
comes back to a row never ends, and one that does not has no more columns than there are rows. -/
def augment (matching : Matching m n) (root endCol : Nat) (parent : Array Nat) :
    Except Fault (Matching m n) := do
  if (← matching.columnAt root).isSome then throw .rowMatched
  let col ← checkIndex n endCol
  if (matching.rowOf col).isSome then throw .columnMatched
  return (← matching.flip parent m col).countOne

theorem augment_val (matching : Matching m n) {root : Fin m} {col : Fin n} (parent : Array Nat)
    (hroot : matching.columnOf root = none) (hcol : matching.rowOf col = none) :
    matching.augment root.val col.val parent = (flip parent m col matching).map countOne := by
  simp only [augment, columnAt_val, hroot, checkIndex_val, hcol, bind, Except.bind]
  cases flip parent m col matching <;> rfl

end LinearAssignment.Matching
