import LinearAssignment.Scalar

/-! What makes one assignment better than another: a sense of optimization, and optionally a gate
that some values do not pass. -/
namespace LinearAssignment

inductive Sense where
  | minimize
  | maximize
  deriving DecidableEq, Repr

namespace Sense

instance : Inhabited Sense := ⟨minimize⟩

def text : Sense → String
  | .minimize => "minimize"
  | .maximize => "maximize"

def toCost [Scalar α] (sense : Sense) (value : α) : α :=
  match sense with
  | .minimize => value
  | .maximize => -value

/-- The value that has the given cost. Negation undoes itself, so it is computed alike. -/
def ofCost [Scalar α] (sense : Sense) (cost : α) : α := sense.toCost cost

/-- Whether the value does not lie beyond the gate. A value on the gate passes. -/
def admits [Scalar α] (sense : Sense) (value gate : α) : Bool :=
  match sense with
  | .minimize => value ≤ gate
  | .maximize => gate ≤ value

@[simp] theorem toCost_minimize [Scalar α] (value : α) : minimize.toCost value = value := rfl

@[simp] theorem toCost_maximize [Scalar α] (value : α) : maximize.toCost value = -value := rfl

@[simp] theorem ofCost_eq_toCost [Scalar α] (sense : Sense) (cost : α) :
    sense.ofCost cost = sense.toCost cost := rfl

@[simp] theorem admits_minimize [Scalar α] (value gate : α) :
    minimize.admits value gate = true ↔ value ≤ gate := by
  simp [admits]

@[simp] theorem admits_maximize [Scalar α] (value gate : α) :
    maximize.admits value gate = true ↔ gate ≤ value := by
  simp [admits]

end Sense

structure Criterion (α : Type) where
  sense : Sense
  gate : Option α
  deriving BEq, Repr

namespace Criterion

def ofSense (sense : Sense) : Criterion α := ⟨sense, none⟩

def minimize : Criterion α := ofSense .minimize

def maximize : Criterion α := ofSense .maximize

instance : Inhabited (Criterion α) := ⟨minimize⟩

def withGate (criterion : Criterion α) (gate : α) : Criterion α :=
  { criterion with gate := some gate }

def allows [Scalar α] (criterion : Criterion α) (value : α) : Bool :=
  criterion.gate.all (criterion.sense.admits value)

@[simp] theorem allows_of_gate_none [Scalar α] (sense : Sense) (value : α) :
    (⟨sense, none⟩ : Criterion α).allows value = true := rfl

@[simp] theorem allows_of_gate_some [Scalar α] (sense : Sense) (gate value : α) :
    (⟨sense, some gate⟩ : Criterion α).allows value = sense.admits value gate := rfl

@[simp] theorem sense_withGate (criterion : Criterion α) (gate : α) :
    (criterion.withGate gate).sense = criterion.sense := rfl

@[simp] theorem gate_withGate (criterion : Criterion α) (gate : α) :
    (criterion.withGate gate).gate = some gate := rfl

end Criterion
end LinearAssignment
