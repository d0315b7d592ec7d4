import LinearAssignment.Criterion
import LinearAssignment.Failure
import LinearAssignment.Grid

/-! Assignment problems: a table of finite values with a criterion. Finiteness is part of the type,
so `ofGrid` and `ofRowMajor` are the only places where an input is refused. -/
namespace LinearAssignment

structure Problem (α : Type) [Scalar α] (rows cols : Nat) where
  values : Grid α rows cols
  criterion : Criterion α
  values_finite : ∀ i j, Scalar.isFinite (values.entry i j) = true
  gate_finite : ∀ gate ∈ criterion.gate, Scalar.isFinite gate = true

namespace Problem

/-- A position in a table has to fit a machine word, so a table has fewer cells than this. -/
def cellLimit : Nat := Nat.pow 2 64

section
variable [Scalar α]

def nonFiniteCell? (values : Grid α rows cols) : Option (Fin rows × Fin cols) :=
  (Grid.cells rows cols).find? fun cell => !Scalar.isFinite (values.entry cell.1 cell.2)

theorem isFinite_of_nonFiniteCell?_eq_none {values : Grid α rows cols}
    (h : nonFiniteCell? values = none) (i : Fin rows) (j : Fin cols) :
    Scalar.isFinite (values.entry i j) = true := by
  simpa using List.find?_eq_none.mp h (i, j) (Grid.mem_cells (i, j))

def ofGrid (values : Grid α rows cols) (criterion : Criterion α) :
    Except Rejection (Problem α rows cols) :=
  match hvalues : nonFiniteCell? values with
  | some (i, j) => .error (.nonFiniteValue i.val j.val)
  | none =>
    if hgate : criterion.gate.all Scalar.isFinite = true then
      .ok {
        values, criterion
        values_finite := isFinite_of_nonFiniteCell?_eq_none hvalues
        gate_finite := fun gate h => by simpa [Option.mem_def.mp h] using hgate }
    else .error .nonFiniteGate

def ofRowMajor (values : Array α) (rows cols : Nat) (criterion : Criterion α) :
    Except Rejection (Problem α rows cols) :=
  if rows * cols < cellLimit then
    if h : values.size = rows * cols then ofGrid (Grid.ofRowMajor ⟨values, h⟩) criterion
    else .error (.lengthMismatch (rows * cols) values.size)
  else .error (.dimensionOverflow rows cols)

theorem ofGrid_of_nonFiniteCell? {values : Grid α rows cols} (criterion : Criterion α)
    (h : nonFiniteCell? values = some (i, j)) :
    ofGrid values criterion = .error (.nonFiniteValue i.val j.val) := by
  unfold ofGrid
  split
  · rename_i h'
    cases Option.some.inj (h.symm.trans h')
    rfl
  · rename_i h'
    cases h.symm.trans h'

theorem values_of_ofGrid {values : Grid α rows cols} {criterion : Criterion α}
    {problem : Problem α rows cols} (h : ofGrid values criterion = .ok problem) :
    problem.values = values ∧ problem.criterion = criterion := by
  unfold ofGrid at h
  split at h
  · cases h
  · split at h <;> cases h
    exact ⟨rfl, rfl⟩

def isEmpty (_ : Problem α rows cols) : Bool := rows == 0 || cols == 0

/-- Whether there is room for a solution, whose longest lists have an entry for each line of the
longer side. -/
def fits (α : Type) [scalar : Scalar α] (rows cols : Nat) : Bool := scalar.fits (max rows cols)

def allocate (_ : Problem α rows cols) : Except Fault Unit :=
  if fits α rows cols then .ok () else .error .capacityOverflow

def admissible (problem : Problem α rows cols) (row : Fin rows) (col : Fin cols) : Bool :=
  problem.criterion.allows (problem.values.entry row col)

def valueAt (problem : Problem α rows cols) (row col : Nat) : Except Fault α :=
  problem.values.read row col

/-- Without a gate no value is read, so no pair is outside. -/
def admissibleAt (problem : Problem α rows cols) (row col : Nat) : Except Fault Bool :=
  match problem.criterion.gate with
  | none => .ok true
  | some gate => do
    let value ← problem.valueAt row col
    return problem.criterion.sense.admits value gate

@[simp] theorem valueAt_val (problem : Problem α rows cols) (row : Fin rows) (col : Fin cols) :
    problem.valueAt row.val col.val = .ok (problem.values.entry row col) := by
  simp [valueAt]

@[simp] theorem admissibleAt_val (problem : Problem α rows cols) (row : Fin rows)
    (col : Fin cols) :
    problem.admissibleAt row.val col.val = .ok (problem.admissible row col) := by
  unfold admissibleAt admissible Criterion.allows
  cases problem.criterion.gate <;> simp [pure, Except.pure, bind, Except.bind]

end
end Problem
end LinearAssignment
