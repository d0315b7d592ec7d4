import LinearAssignment.Grid
import LinearAssignment.Scalar

/-! Dual potentials: one number for each row and each column of a table of costs. When no
slack is below zero and no potential of a column above it, their total bounds the cost of every
complete matching from below. -/
namespace LinearAssignment

structure Potentials (α : Type) (m n : Nat) where
  rows : Vector α m
  cols : Vector α n

namespace Potentials

def row (potentials : Potentials α m n) (i : Fin m) : α := potentials.rows.get i

def col (potentials : Potentials α m n) (j : Fin n) : α := potentials.cols.get j

@[ext] theorem ext {left right : Potentials α m n} (hrows : ∀ i, left.row i = right.row i)
    (hcols : ∀ j, left.col j = right.col j) : left = right := by
  cases left with
  | mk rows cols =>
    cases right with
    | mk rows' cols' =>
      congr 1
      · exact ext_get hrows
      · exact ext_get hcols

def ofFn (row : Fin m → α) (col : Fin n → α) : Potentials α m n :=
  ⟨Vector.ofFn row, Vector.ofFn col⟩

@[simp] theorem row_ofFn (row : Fin m → α) (col : Fin n → α) (i : Fin m) :
    (ofFn row col).row i = row i := by
  simp [ofFn, Potentials.row]

@[simp] theorem col_ofFn (row : Fin m → α) (col : Fin n → α) (j : Fin n) :
    (ofFn row col).col j = col j := by
  simp [ofFn, Potentials.col]

def agrees [BEq α] (left : Potentials α m n) (right : Potentials α k l) : Bool :=
  left.rows.toList == right.rows.toList && left.cols.toList == right.cols.toList

variable [Scalar α]

def initial (costs : Grid α m n) : Potentials α m n :=
  ofFn (fun i => Scalar.minimum ((List.finRange n).map (costs.entry i))) fun _ => 0

@[simp] theorem row_initial (costs : Grid α m n) (i : Fin m) :
    (initial costs).row i = Scalar.minimum ((List.finRange n).map (costs.entry i)) := by
  simp [initial]

@[simp] theorem col_initial (costs : Grid α m n) (j : Fin n) : (initial costs).col j = 0 := by
  simp [initial]

def slack (potentials : Potentials α m n) (costs : Grid α m n) (i : Fin m) (j : Fin n) : α :=
  costs.entry i j - potentials.row i - potentials.col j

/-- The slack of a pair given by plain numbers, for potentials of any length. The cost is looked up
first, then the potential of the row, then that of the column. -/
def slackAt (potentials : Potentials α k l) (costs : Grid α m n) (row col : Nat) :
    Except Fault α := do
  let cost ← costs.read row col
  let row ← checkIndex k row
  let col ← checkIndex l col
  return cost - potentials.row row - potentials.col col

@[simp] theorem slackAt_val (potentials : Potentials α m n) (costs : Grid α m n) (i : Fin m)
    (j : Fin n) : potentials.slackAt costs i.val j.val = .ok (potentials.slack costs i j) := by
  simp [slackAt, slack, bind, Except.bind, pure, Except.pure]

def total (potentials : Potentials α m n) : α :=
  Scalar.sum (potentials.rows.toList ++ potentials.cols.toList)

def shift (potentials : Potentials α m n) (rows : List (Fin m)) (cols : List (Fin n)) (step : α) :
    Potentials α m n :=
  ofFn (fun i => if rows.contains i then potentials.row i + step else potentials.row i)
    fun j => if cols.contains j then potentials.col j - step else potentials.col j

@[simp] theorem row_shift (potentials : Potentials α m n) (rows : List (Fin m))
    (cols : List (Fin n)) (step : α) (i : Fin m) :
    (potentials.shift rows cols step).row i =
      if rows.contains i then potentials.row i + step else potentials.row i := by
  simp [shift]

@[simp] theorem col_shift (potentials : Potentials α m n) (rows : List (Fin m))
    (cols : List (Fin n)) (step : α) (j : Fin n) :
    (potentials.shift rows cols step).col j =
      if cols.contains j then potentials.col j - step else potentials.col j := by
  simp [shift]

end Potentials
end LinearAssignment
