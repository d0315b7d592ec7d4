import LinearAssignment.Proofs.Exact
import LinearAssignment.Proofs.Problem.Orientation

/-! Problems in exact arithmetic. Values, costs and the penalty are numbers of the field, and the
penalty is one more than twice the total size of the admissible costs. -/
namespace LinearAssignment

namespace Sense

def signed [Neg K] : Sense → K → K
  | minimize, value => value
  | maximize, value => -value

def AtLeastAsGood [LE K] : Sense → K → K → Prop
  | minimize, total, other => total ≤ other
  | maximize, total, other => other ≤ total

theorem AtLeastAsGood.trans [Preorder K] {sense : Sense} {first second third : K}
    (h : sense.AtLeastAsGood first second) (h' : sense.AtLeastAsGood second third) :
    sense.AtLeastAsGood first third := by
  cases sense with
  | minimize => exact le_trans h h'
  | maximize => exact le_trans h' h

theorem AtLeastAsGood.antisymm [PartialOrder K] {sense : Sense} {total other : K}
    (h : sense.AtLeastAsGood total other) (h' : sense.AtLeastAsGood other total) :
    total = other := by
  cases sense with
  | minimize => exact le_antisymm h h'
  | maximize => exact le_antisymm h' h

variable [Field K]

@[simp] theorem signed_signed (sense : Sense) (value : K) :
    sense.signed (sense.signed value) = value := by
  cases sense with
  | minimize => rfl
  | maximize => exact neg_neg value

theorem signed_add (sense : Sense) (value other : K) :
    sense.signed (value + other) = sense.signed value + sense.signed other := by
  cases sense with
  | minimize => rfl
  | maximize => exact neg_add value other

@[simp] theorem signed_zero (sense : Sense) : sense.signed (0 : K) = 0 := by
  cases sense with
  | minimize => rfl
  | maximize => exact neg_zero

theorem signed_sum (sense : Sense) (members : Finset ι) (value : ι → K) :
    sense.signed (∑ i ∈ members, value i) = ∑ i ∈ members, sense.signed (value i) := by
  cases sense with
  | minimize => rfl
  | maximize => exact (Finset.sum_neg_distrib value).symm

variable [LinearOrder K]

@[simp] theorem toCost_finite (sense : Sense) (value : K) :
    sense.toCost (Exact.finite value) = .finite (sense.signed value) := by
  cases sense <;> rfl

theorem admits_finite (sense : Sense) (value gate : K) :
    sense.admits (Exact.finite value) (.finite gate) = true ↔ sense.AtLeastAsGood value gate := by
  cases sense with
  | minimize => exact admits_minimize _ _
  | maximize => exact admits_maximize _ _

theorem atLeastAsGood_iff [IsStrictOrderedRing K] (sense : Sense) (total other : K) :
    sense.AtLeastAsGood total other ↔ sense.signed total ≤ sense.signed other := by
  cases sense with
  | minimize => exact Iff.rfl
  | maximize => exact neg_le_neg_iff.symm

theorem abs_signed [IsStrictOrderedRing K] (sense : Sense) (value : K) :
    |sense.signed value| = |value| := by
  cases sense with
  | minimize => rfl
  | maximize => exact abs_neg value

end Sense

namespace Grid

theorem nodup_cellsByColumn (m n : Nat) : (cellsByColumn m n).Nodup := by
  rw [cellsByColumn, List.nodup_flatMap]
  refine ⟨fun j _ => ?_, ?_⟩
  · exact (List.nodup_finRange m).map fun i k h => congrArg Prod.fst h
  · apply (List.nodup_finRange n).imp
    intro j k hne cell hj hk
    obtain ⟨i, -, rfl⟩ := List.mem_map.mp hj
    obtain ⟨i', -, heq⟩ := List.mem_map.mp hk
    exact hne (congrArg Prod.snd heq).symm

theorem toFinset_cellsByColumn (m n : Nat) : (cellsByColumn m n).toFinset = Finset.univ := by
  ext cell
  simp

end Grid

namespace Problem

variable [Field K] [LinearOrder K] (problem : Problem (Exact K) rows cols)

def number (pair : Fin rows × Fin cols) : K := (problem.values.entry pair.1 pair.2).toField

theorem entry_eq_number (pair : Fin rows × Fin cols) :
    problem.values.entry pair.1 pair.2 = .finite (problem.number pair) :=
  (Exact.finite_toField (problem.values_finite pair.1 pair.2)).symm

def admissibleCells : Finset (Fin (min rows cols) × Fin (max rows cols)) :=
  Finset.univ.filter fun cell => problem.admissibleIn cell.1 cell.2 = true

theorem mem_admissibleCells {cell : Fin (min rows cols) × Fin (max rows cols)} :
    cell ∈ problem.admissibleCells ↔ problem.admissibleIn cell.1 cell.2 = true := by
  simp [admissibleCells]

def signedNumber (cell : Fin (min rows cols) × Fin (max rows cols)) : K :=
  problem.criterion.sense.signed (problem.number (locate cell.1 cell.2))

theorem costIn_eq_signedNumber (i : Fin (min rows cols)) (j : Fin (max rows cols)) :
    problem.costIn i j = .finite (problem.signedNumber (i, j)) := by
  rw [costIn, valueIn, entry_eq_number, Sense.toCost_finite]
  rfl

def size : K := ∑ cell ∈ problem.admissibleCells, |problem.signedNumber cell|

theorem spread_eq_size : problem.spread = .finite problem.size := by
  have hmap : (((Grid.cellsByColumn (min rows cols) (max rows cols)).filter fun cell =>
      problem.admissibleIn cell.1 cell.2).map fun cell =>
        Scalar.abs (problem.costIn cell.1 cell.2)) =
      (((Grid.cellsByColumn (min rows cols) (max rows cols)).filter fun cell =>
        problem.admissibleIn cell.1 cell.2).map fun cell =>
          |problem.signedNumber cell|).map Exact.finite := by
    rw [List.map_map]
    apply List.map_congr_left
    intro cell _
    rw [costIn_eq_signedNumber]
    rfl
  rw [spread, hmap, Exact.sum_finite, size,
    ← List.sum_toFinset _ ((Grid.nodup_cellsByColumn _ _).filter _), List.toFinset_filter,
    Grid.toFinset_cellsByColumn]
  rfl

def fee : K := 1 + 2 * problem.size

theorem penalty_eq_fee : problem.penalty = .finite problem.fee := by
  rw [penalty, spread_eq_size, Exact.one_eq, Exact.finite_add, Exact.finite_add, fee]
  congr 1
  ring

def cost (i : Fin (min rows cols)) (j : Fin (max rows cols)) : K :=
  if problem.admissibleIn i j then problem.signedNumber (i, j) else problem.fee

theorem costs_eq_exact : problem.costs = Grid.exact problem.cost := by
  apply Grid.ext
  intro i j
  rw [entry_costs, Grid.entry_exact, costIn_eq_signedNumber, penalty_eq_fee, cost]
  split <;> rfl

end Problem
end LinearAssignment
