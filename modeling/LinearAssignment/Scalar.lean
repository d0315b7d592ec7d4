/-! The operations that an assignment problem asks of its numbers. No law is part of the class:
binary floating point rounds, overflows and leaves NaN unordered, and the search has to be well
defined there too. Laws enter only where a statement needs them. -/
namespace LinearAssignment

/-- Numbers with a greatest sentinel. A comparison may be false both ways round. -/
class Scalar (α : Type) extends Zero α, One α, Add α, Sub α, Neg α, LT α, LE α where
  /-- Above every cost; where each minimum starts. -/
  infinity : α
  abs : α → α
  isFinite : α → Bool
  /-- Whether lists with so many entries can be allocated. Exact numbers are of no machine. -/
  fits : Nat → Bool := fun _ => true
  decidableLT : DecidableLT α
  decidableLE : DecidableLE α

namespace Scalar

instance [Scalar α] : DecidableLT α := Scalar.decidableLT

instance [Scalar α] : DecidableLE α := Scalar.decidableLE

/-- Added from left to right, starting at zero. Rounding makes the order part of the meaning. -/
def sum [Scalar α] (values : List α) : α := values.foldl (· + ·) 0

@[simp] theorem sum_nil [Scalar α] : sum ([] : List α) = 0 := rfl

@[simp] theorem sum_concat [Scalar α] (values : List α) (value : α) :
    sum (values ++ [value]) = sum values + value := by
  simp [sum]

/-- A strictly smaller value replaces the lowest so far, so the first of equal values stays. -/
def minimum [Scalar α] (values : List α) : α :=
  values.foldl (fun lowest value => if value < lowest then value else lowest) infinity

@[simp] theorem minimum_nil [Scalar α] : minimum ([] : List α) = infinity := rfl

theorem minimum_concat [Scalar α] (values : List α) (value : α) :
    minimum (values ++ [value]) =
      if value < minimum values then value else minimum values := by
  rw [minimum, List.foldl_append]
  rfl

end Scalar

/-- An allocation has less than `2 ^ 63` bytes, of which a partner in a matching takes 16. -/
def entryLimit : Nat := Nat.pow 2 59

instance : Scalar Float where
  zero := 0.0
  one := 1.0
  infinity := 1.0 / 0.0
  abs := Float.abs
  isFinite := Float.isFinite
  fits count := count < entryLimit
  decidableLT := Float.decLt
  decidableLE := Float.decLe

instance : Scalar Float32 where
  zero := 0.0
  one := 1.0
  infinity := 1.0 / 0.0
  abs := Float32.abs
  isFinite := Float32.isFinite
  fits count := count < entryLimit
  decidableLT := Float32.decLt
  decidableLE := Float32.decLe

end LinearAssignment
