import LinearAssignment.Potentials
import Mathlib

/-! Exact arithmetic: the numbers of a linearly ordered field, and above all of them the sentinel
that minima and slacks start from. Costs and potentials never hold the sentinel, so a table of
costs and a pair of potentials are given by functions into the field. The order is that of the
scalars and no instance of its own, so that an inequality reads in one way only. -/
namespace LinearAssignment

inductive Exact (K : Type) where
  | finite (value : K)
  | infinity
  deriving DecidableEq, Repr

namespace Exact

def map₂ (op : K → K → K) : Exact K → Exact K → Exact K
  | finite a, finite b => finite (op a b)
  | _, _ => infinity

def map (op : K → K) : Exact K → Exact K
  | finite a => finite (op a)
  | infinity => infinity

theorem map_map₂ {f g h : K → K} {op op' : K → K → K} (hop : ∀ a b, f (op a b) = op' (g a) (h b))
    (x y : Exact K) : (map₂ op x y).map f = map₂ op' (x.map g) (y.map h) := by
  cases x with
  | infinity => rfl
  | finite a =>
    cases y with
    | infinity => rfl
    | finite b => exact congrArg finite (hop a b)

section
variable [LinearOrder K]

protected def lt : Exact K → Exact K → Prop
  | finite a, finite b => a < b
  | finite _, infinity => True
  | infinity, _ => False

protected def le : Exact K → Exact K → Prop
  | finite a, finite b => a ≤ b
  | infinity, finite _ => False
  | _, infinity => True

instance : DecidableRel (Exact.lt (K := K))
  | finite a, finite b => inferInstanceAs (Decidable (a < b))
  | finite _, infinity => inferInstanceAs (Decidable True)
  | infinity, finite _ => inferInstanceAs (Decidable False)
  | infinity, infinity => inferInstanceAs (Decidable False)

instance : DecidableRel (Exact.le (K := K))
  | finite a, finite b => inferInstanceAs (Decidable (a ≤ b))
  | infinity, finite _ => inferInstanceAs (Decidable False)
  | finite _, infinity => inferInstanceAs (Decidable True)
  | infinity, infinity => inferInstanceAs (Decidable True)

end

variable [Field K] [LinearOrder K]

instance : Scalar (Exact K) where
  zero := finite 0
  one := finite 1
  add := map₂ (· + ·)
  sub := map₂ (· - ·)
  neg := map (- ·)
  lt := Exact.lt
  le := Exact.le
  infinity := infinity
  abs := map fun a => |a|
  isFinite
    | finite _ => true
    | infinity => false
  decidableLT := inferInstanceAs (DecidableRel Exact.lt)
  decidableLE := inferInstanceAs (DecidableRel Exact.le)

theorem one_eq : (1 : Exact K) = finite 1 := rfl

@[simp] theorem finite_add (a b : K) : finite a + finite b = finite (a + b) := rfl

@[simp] theorem finite_sub (a b : K) : finite a - finite b = finite (a - b) := rfl

@[simp] theorem neg_finite (a : K) : -finite a = finite (-a) := rfl

@[simp] theorem abs_finite (a : K) : Scalar.abs (finite a) = finite |a| := rfl

@[simp] theorem finite_lt (a b : K) : finite a < finite b ↔ a < b := Iff.rfl

@[simp] theorem finite_le (a b : K) : finite a ≤ finite b ↔ a ≤ b := Iff.rfl

@[simp] theorem finite_lt_infinity (a : K) : finite a < Scalar.infinity := trivial

@[simp] theorem isFinite_finite (a : K) : Scalar.isFinite (finite a) = true := rfl

theorem isFinite_iff {x : Exact K} : Scalar.isFinite x = true ↔ ∃ a, x = finite a := by
  cases x with
  | finite a => exact ⟨fun _ => ⟨a, rfl⟩, fun _ => rfl⟩
  | infinity =>
    constructor
    · intro h
      cases h
    · rintro ⟨a, h⟩
      cases h

protected theorem le_refl (x : Exact K) : x ≤ x := by
  cases x with
  | finite a => exact le_refl a
  | infinity => trivial

protected theorem le_trans {x y z : Exact K} (hxy : x ≤ y) (hyz : y ≤ z) : x ≤ z := by
  cases z with
  | infinity => cases x <;> trivial
  | finite c =>
    cases y with
    | infinity => cases hyz
    | finite b =>
      cases x with
      | infinity => cases hxy
      | finite a => exact le_trans hxy hyz

protected theorem le_total (x y : Exact K) : x ≤ y ∨ y ≤ x := by
  cases x with
  | infinity => cases y <;> exact Or.inr trivial
  | finite a =>
    cases y with
    | infinity => exact Or.inl trivial
    | finite b => exact le_total a b

protected theorem not_lt {x y : Exact K} : ¬x < y ↔ y ≤ x := by
  cases x with
  | infinity => cases y <;> exact iff_of_true id trivial
  | finite a =>
    cases y with
    | infinity => exact iff_of_false (not_not_intro trivial) id
    | finite b => exact not_lt

protected theorem le_of_lt {x y : Exact K} (h : x < y) : x ≤ y :=
  (Exact.le_total x y).elim id fun hyx => absurd h (Exact.not_lt.mpr hyx)

theorem map_lt_map {f : K → K} (hf : StrictMono f) (x y : Exact K) :
    x.map f < y.map f ↔ x < y := by
  cases x with
  | infinity => cases y <;> exact Iff.rfl
  | finite a =>
    cases y with
    | infinity => exact Iff.rfl
    | finite b => exact hf.lt_iff_lt

theorem map_le_map {f : K → K} (hf : StrictMono f) (x y : Exact K) :
    x.map f ≤ y.map f ↔ x ≤ y := by
  rw [← Exact.not_lt, ← Exact.not_lt, map_lt_map hf]

theorem sub_finite_zero (x : Exact K) : x - finite 0 = x := by
  cases x with
  | finite a => rw [finite_sub, sub_zero]
  | infinity => rfl

protected theorem add_zero (x : Exact K) : x + 0 = x := by
  cases x with
  | finite a => exact congrArg finite (add_zero a)
  | infinity => rfl

protected theorem add_assoc (x y z : Exact K) : x + y + z = x + (y + z) := by
  cases x with
  | infinity => rfl
  | finite a =>
    cases y with
    | infinity => rfl
    | finite b =>
      cases z with
      | infinity => rfl
      | finite c => exact congrArg finite (add_assoc a b c)

theorem eq_finite_sub {x : Exact K} (h : finite b = finite a + x) : x = finite (b - a) := by
  cases x with
  | infinity => cases h
  | finite c =>
    rw [finite_add, finite.injEq] at h
    rw [h, add_sub_cancel_left]

protected theorem sub_le_sub_right [IsStrictOrderedRing K] {x y : Exact K} (h : x ≤ y)
    (z : Exact K) : x - z ≤ y - z := by
  cases z with
  | infinity => cases x <;> cases y <;> trivial
  | finite c =>
    cases y with
    | infinity => cases x <;> trivial
    | finite b =>
      cases x with
      | infinity => cases h
      | finite a => exact sub_le_sub_right ((finite_le a b).mp h) c

theorem sub_le_finite_sub [IsStrictOrderedRing K] {x : Exact K} (h : x ≤ finite a) (step : K) :
    x - finite step ≤ finite (a - step) :=
  Exact.sub_le_sub_right h (finite step)

theorem sub_finite_lt [IsStrictOrderedRing K] (x y : Exact K) (step : K) :
    x - finite step < y - finite step ↔ x < y := by
  cases x with
  | infinity => cases y <;> exact Iff.rfl
  | finite a =>
    cases y with
    | infinity => exact Iff.rfl
    | finite b => exact sub_lt_sub_iff_right step

theorem sub_finite_inj {x y : Exact K} {step : K} : x - finite step = y - finite step ↔ x = y := by
  refine ⟨fun h => ?_, fun h => by rw [h]⟩
  cases x with
  | infinity =>
    cases y with
    | infinity => rfl
    | finite b => cases h
  | finite a =>
    cases y with
    | infinity => cases h
    | finite b => exact congrArg finite (sub_left_injective (finite.inj h))

def toField : Exact K → K
  | finite a => a
  | infinity => 0

theorem finite_toField {x : Exact K} (h : Scalar.isFinite x = true) : finite x.toField = x := by
  obtain ⟨a, rfl⟩ := isFinite_iff.mp h
  rfl

theorem sum_finite (values : List K) :
    Scalar.sum (values.map finite) = finite values.sum := by
  have hfold (start : K) : (values.map finite).foldl (· + ·) (finite start) =
      finite (start + values.sum) := by
    induction values generalizing start with
    | nil => simp
    | cons value values ih =>
      rw [List.map_cons, List.foldl_cons, finite_add, ih, List.sum_cons, add_assoc]
  have hsum := hfold 0
  rwa [zero_add] at hsum

theorem sum_append (first second : List (Exact K)) :
    Scalar.sum (first ++ second) = Scalar.sum first + Scalar.sum second := by
  induction second using List.reverseRecOn with
  | nil => rw [List.append_nil, Scalar.sum_nil, Exact.add_zero]
  | append_singleton second value ih =>
    rw [← List.append_assoc, Scalar.sum_concat, Scalar.sum_concat, ih, Exact.add_assoc]

protected theorem add_pos [IsStrictOrderedRing K] {x y : Exact K} (hx : 0 ≤ x) (hy : 0 < y) :
    0 < x + y := by
  cases x with
  | infinity => trivial
  | finite a =>
    cases y with
    | infinity => trivial
    | finite b => exact add_pos_of_nonneg_of_pos hx hy

theorem sum_nonneg [IsStrictOrderedRing K] {values : List (Exact K)}
    (h : ∀ value ∈ values, 0 < value) : 0 ≤ Scalar.sum values := by
  induction values using List.reverseRecOn with
  | nil => exact Exact.le_refl 0
  | append_singleton values value ih =>
    rw [List.forall_mem_append, List.forall_mem_singleton] at h
    rw [Scalar.sum_concat]
    exact Exact.le_of_lt (Exact.add_pos (ih h.1) h.2)

theorem sum_eq_zero_iff [IsStrictOrderedRing K] {values : List (Exact K)}
    (h : ∀ value ∈ values, 0 < value) : Scalar.sum values = 0 ↔ values = [] := by
  cases values using List.reverseRecOn with
  | nil => exact iff_of_true rfl rfl
  | append_singleton values value =>
    rw [List.forall_mem_append, List.forall_mem_singleton] at h
    have hpos := Exact.add_pos (sum_nonneg h.1) h.2
    rw [Scalar.sum_concat]
    refine iff_of_false (fun hzero => ?_) (List.append_ne_nil_of_right_ne_nil _ (by simp))
    rw [hzero] at hpos
    exact Exact.not_lt.mpr (Exact.le_refl 0) hpos

theorem minimum_le {values : List (Exact K)} (h : x ∈ values) : Scalar.minimum values ≤ x := by
  induction values using List.reverseRecOn with
  | nil => cases h
  | append_singleton values value ih =>
    rw [Scalar.minimum_concat]
    rcases List.mem_append.mp h with hmem | hmem
    · split
      · rename_i hlt
        exact Exact.le_trans (Exact.le_of_lt hlt) (ih hmem)
      · exact ih hmem
    · rw [List.mem_singleton.mp hmem]
      split
      · exact Exact.le_refl _
      · rename_i hnot
        exact Exact.not_lt.mp hnot

theorem minimum_finite {values : List K} (h : values ≠ []) :
    ∃ lowest ∈ values, Scalar.minimum (values.map finite) = finite lowest ∧
      ∀ value ∈ values, lowest ≤ value := by
  induction values using List.reverseRecOn with
  | nil => exact absurd rfl h
  | append_singleton values value ih =>
    rw [List.map_append, List.map_singleton, Scalar.minimum_concat]
    rcases eq_or_ne values [] with rfl | hvalues
    · exact ⟨value, by simp, if_pos (finite_lt_infinity value), by simp⟩
    · obtain ⟨lowest, hmem, hmin, hle⟩ := ih hvalues
      rw [hmin]
      rcases lt_or_ge value lowest with hlt | hge
      · refine ⟨value, by simp, if_pos ((finite_lt _ _).mpr hlt), fun other hother => ?_⟩
        rcases List.mem_append.mp hother with hother | hother
        · exact hlt.le.trans (hle other hother)
        · exact (List.mem_singleton.mp hother).ge
      · have hnot : ¬finite value < finite lowest := (finite_lt _ _).not.mpr hge.not_gt
        refine ⟨lowest, List.mem_append_left _ hmem, if_neg hnot, fun other hother => ?_⟩
        rcases List.mem_append.mp hother with hother | hother
        · exact hle other hother
        · rwa [List.mem_singleton.mp hother]

end Exact

def Grid.exact (cost : Fin m → Fin n → K) : Grid (Exact K) m n :=
  Grid.ofFn fun i j => .finite (cost i j)

@[simp] theorem Grid.entry_exact (cost : Fin m → Fin n → K) (i : Fin m) (j : Fin n) :
    (Grid.exact cost).entry i j = .finite (cost i j) := by
  simp [exact]

def Grid.costOf [Scalar α] (costs : Grid α m n) (choice : Fin m → Fin n) : α :=
  Scalar.sum <| (List.finRange m).map fun i => costs.entry i (choice i)

theorem Grid.costOf_exact [Field K] [LinearOrder K] (cost : Fin m → Fin n → K)
    (choice : Fin m → Fin n) :
    (Grid.exact cost).costOf choice = .finite (∑ i, cost i (choice i)) := by
  have hentries : ((List.finRange m).map fun i => (Grid.exact cost).entry i (choice i)) =
      ((List.finRange m).map fun i => cost i (choice i)).map Exact.finite := by
    simp [Function.comp_def]
  rw [costOf, hentries, Exact.sum_finite, Fin.sum_univ_def]

namespace Potentials

def exact (u : Fin m → K) (v : Fin n → K) : Potentials (Exact K) m n :=
  ofFn (fun i => .finite (u i)) fun j => .finite (v j)

@[simp] theorem row_exact (u : Fin m → K) (v : Fin n → K) (i : Fin m) :
    (exact u v).row i = .finite (u i) := by
  simp [exact]

@[simp] theorem col_exact (u : Fin m → K) (v : Fin n → K) (j : Fin n) :
    (exact u v).col j = .finite (v j) := by
  simp [exact]

theorem exact_inj {u u' : Fin m → K} {v v' : Fin n → K} (h : exact u v = exact u' v') :
    u = u' ∧ v = v' := by
  constructor
  · funext i
    have hrow := congrArg (fun potentials => potentials.row i) h
    simpa using hrow
  · funext j
    have hcol := congrArg (fun potentials => potentials.col j) h
    simpa using hcol

section
variable [Field K]

def raised (members : List (Fin k)) (step : K) (values : Fin k → K) : Fin k → K :=
  fun i => if i ∈ members then values i + step else values i

theorem raised_of_mem {members : List (Fin k)} (h : i ∈ members) (step : K) (values : Fin k → K) :
    raised members step values i = values i + step := if_pos h

theorem raised_of_not_mem {members : List (Fin k)} (h : i ∉ members) (step : K)
    (values : Fin k → K) : raised members step values i = values i := if_neg h

@[simp] theorem raised_zero (members : List (Fin k)) (values : Fin k → K) :
    raised members 0 values = values := by
  funext i
  simp [raised]

theorem raised_mem {S : AddSubgroup K} {members : List (Fin k)} {values : Fin k → K}
    (hvalues : ∀ i, values i ∈ S) (hstep : step ∈ S) (i : Fin k) :
    raised members step values i ∈ S := by
  unfold raised
  split
  · exact S.add_mem (hvalues i) hstep
  · exact hvalues i

theorem sum_raised {members : List (Fin k)} (h : members.Nodup) (step : K) (values : Fin k → K) :
    ∑ i, raised members step values i = ∑ i, values i + members.length * step := by
  have hsplit (i : Fin k) : raised members step values i =
      values i + if i ∈ members.toFinset then step else 0 := by
    by_cases hi : i ∈ members <;> simp [raised, hi]
  calc ∑ i, raised members step values i
      = ∑ i, values i + ∑ i, if i ∈ members.toFinset then step else 0 := by
        rw [← Finset.sum_add_distrib]
        exact Finset.sum_congr rfl fun i _ => hsplit i
    _ = ∑ i, values i + members.length * step := by
        rw [Finset.sum_ite_mem, Finset.univ_inter, Finset.sum_const,
          List.toFinset_card_of_nodup h, nsmul_eq_mul]

end

variable [Field K] [LinearOrder K]

@[simp] theorem slack_exact (u : Fin m → K) (v : Fin n → K) (cost : Fin m → Fin n → K)
    (i : Fin m) (j : Fin n) :
    (exact u v).slack (Grid.exact cost) i j = .finite (cost i j - u i - v j) := by
  simp [slack]

theorem slack_exact_lt_infinity (u : Fin m → K) (v : Fin n → K) (cost : Fin m → Fin n → K)
    (i : Fin m) (j : Fin n) :
    (exact u v).slack (Grid.exact cost) i j < Scalar.infinity := by
  rw [slack_exact]
  exact Exact.finite_lt_infinity _

theorem shift_exact (u : Fin m → K) (v : Fin n → K) (rows : List (Fin m)) (cols : List (Fin n))
    (step : K) :
    (exact u v).shift rows cols (.finite step) =
      exact (raised rows step u) (raised cols (-step) v) := by
  apply Potentials.ext
  · intro i
    by_cases hi : i ∈ rows <;> simp [raised, hi]
  · intro j
    by_cases hj : j ∈ cols <;> simp [raised, hj, sub_eq_add_neg]

theorem total_exact (u : Fin m → K) (v : Fin n → K) :
    (exact u v).total = .finite (∑ i, u i + ∑ j, v j) := by
  have hrows : (exact u v).rows.toList = (List.ofFn u).map Exact.finite := by
    simp [exact, ofFn, List.map_ofFn, Function.comp_def, Vector.toList_ofFn]
  have hcols : (exact u v).cols.toList = (List.ofFn v).map Exact.finite := by
    simp [exact, ofFn, List.map_ofFn, Function.comp_def, Vector.toList_ofFn]
  rw [total, hrows, hcols, ← List.map_append, Exact.sum_finite, List.sum_append,
    List.sum_ofFn, List.sum_ofFn]

end Potentials
end LinearAssignment
