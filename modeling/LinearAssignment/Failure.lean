import LinearAssignment.Fault

/-! Why there is no assignment: an input was refused before anything was solved, or a lookup went
wrong on the way. -/
namespace LinearAssignment

inductive Rejection where
  | dimensionOverflow (rows cols : Nat)
  | lengthMismatch (expected found : Nat)
  | nonFiniteValue (row col : Nat)
  | nonFiniteGate
  deriving DecidableEq, Repr

def Rejection.reason : Rejection → String
  | .dimensionOverflow rows cols => s!"dimensions {rows}x{cols} overflow"
  | .lengthMismatch expected found => s!"expected {expected} values, found {found}"
  | .nonFiniteValue row col => s!"value at ({row}, {col}) is not finite"
  | .nonFiniteGate => "gate is not finite"

inductive Failure where
  | rejected (rejection : Rejection)
  | faulty (fault : Fault)
  deriving DecidableEq, Repr

namespace Failure

def message : Failure → String
  | .rejected rejection => "Invalid input: " ++ rejection.reason
  | .faulty fault => fault.message

def isInvalidInput : Failure → Bool
  | .rejected _ => true
  | .faulty _ => false

end Failure
end LinearAssignment
