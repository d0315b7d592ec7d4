import LinearAssignment.Proofs.Exact

/-! Tables with more columns on the right. A far column, as we call these, is of no use if in no row
it costs less than any of the columns before it. Then the least costs of the rows stay what they
are, and the far columns keep the potential zero that they start with. -/
namespace LinearAssignment

/-- The columns on the left have the costs of the narrow table, and no far column costs less in any
row than one of them. -/
structure Widens [LE K] (cost : Fin m → Fin n → K) (wide : Fin m → Fin (n + k) → K) : Prop where
  near_eq : ∀ i j, wide i (j.castAdd k) = cost i j
  far_le : ∀ i j far, cost i j ≤ wide i (Fin.natAdd n far)

theorem finRange_add (n k : Nat) :
    List.finRange (n + k) =
      (List.finRange n).map (Fin.castAdd k) ++ (List.finRange k).map (Fin.natAdd n) := by
  rw [← List.ofFn_eq_map, ← List.ofFn_eq_map, List.finRange, List.ofFn_add]
  rfl

theorem Scalar.minimum_append [Scalar α] {values : List α} (others : List α)
    (h : ∀ other ∈ others, ¬other < minimum values) :
    minimum (values ++ others) = minimum values := by
  induction others using List.reverseRecOn with
  | nil => rw [List.append_nil]
  | append_singleton others other ih =>
    have hothers := ih fun earlier hearlier => h earlier (List.mem_append_left _ hearlier)
    rw [← List.append_assoc, minimum_concat, hothers]
    exact if_neg (h other (List.mem_append_right _ (List.mem_singleton_self other)))

theorem near_ne_far (j : Fin n) (far : Fin k) : j.castAdd k ≠ Fin.natAdd n far := by
  intro heq
  have hval : j.val = n + far.val := congrArg Fin.val heq
  omega

theorem contains_near (k : Nat) (cols : List (Fin n)) (j : Fin n) :
    (cols.map (Fin.castAdd k)).contains (j.castAdd k) = cols.contains j := by
  rw [Bool.eq_iff_iff, List.contains_iff_mem, List.contains_iff_mem,
    List.mem_map_of_injective (Fin.castAdd_injective n k)]

theorem contains_far (cols : List (Fin n)) (far : Fin k) :
    (cols.map (Fin.castAdd k)).contains (Fin.natAdd n far) = false := by
  rw [Bool.eq_false_iff, Ne, List.contains_iff_mem, List.mem_map]
  rintro ⟨j, -, heq⟩
  exact near_ne_far j far heq

namespace Potentials

section
variable [Scalar α]

def widen (k : Nat) (potentials : Potentials α m n) : Potentials α m (n + k) :=
  ofFn potentials.row (Fin.append potentials.col fun _ => 0)

@[simp] theorem row_widen (k : Nat) (potentials : Potentials α m n) (i : Fin m) :
    (potentials.widen k).row i = potentials.row i := by
  simp [widen]

@[simp] theorem col_widen_near (k : Nat) (potentials : Potentials α m n) (j : Fin n) :
    (potentials.widen k).col (j.castAdd k) = potentials.col j := by
  simp [widen]

@[simp] theorem col_widen_far (potentials : Potentials α m n) (far : Fin k) :
    (potentials.widen k).col (Fin.natAdd n far) = 0 := by
  simp [widen]

theorem shift_widen (k : Nat) (potentials : Potentials α m n) (rows : List (Fin m))
    (cols : List (Fin n)) (step : α) :
    (potentials.widen k).shift rows (cols.map (Fin.castAdd k)) step =
      (potentials.shift rows cols step).widen k := by
  apply Potentials.ext
  · intro i
    rw [row_shift, row_widen, row_widen, row_shift]
  · intro j
    induction j using Fin.addCases with
    | left j => rw [col_shift, contains_near, col_widen_near, col_widen_near, col_shift]
    | right far =>
      rw [col_shift, contains_far, col_widen_far, col_widen_far]
      rfl

end

variable [Field K] [LinearOrder K] {cost : Fin m → Fin n → K} {wide : Fin m → Fin (n + k) → K}

theorem slack_widen_near (h : Widens cost wide) (potentials : Potentials (Exact K) m n)
    (i : Fin m) (j : Fin n) :
    (potentials.widen k).slack (Grid.exact wide) i (j.castAdd k) =
      potentials.slack (Grid.exact cost) i j := by
  rw [slack, slack, Grid.entry_exact, h.near_eq, Grid.entry_exact, row_widen, col_widen_near]

theorem slack_le_slack_far [IsStrictOrderedRing K] (h : Widens cost wide)
    {potentials : Potentials (Exact K) m n} (hcol : potentials.col j = 0) (i : Fin m)
    (far : Fin k) :
    potentials.slack (Grid.exact cost) i j ≤
      (potentials.widen k).slack (Grid.exact wide) i (Fin.natAdd n far) := by
  have hcost : Exact.finite (cost i j) ≤ Exact.finite (wide i (Fin.natAdd n far)) :=
    (Exact.finite_le _ _).mpr (h.far_le i j far)
  rw [slack, slack, Grid.entry_exact, Grid.entry_exact, row_widen, col_widen_far, hcol]
  exact Exact.sub_le_sub_right (Exact.sub_le_sub_right hcost _) 0

theorem initial_widen (h : Widens cost wide) (hmn : m ≤ n) :
    (initial (Grid.exact cost)).widen k = initial (Grid.exact wide) := by
  apply Potentials.ext
  · intro i
    have hentries : (List.finRange (n + k)).map ((Grid.exact wide).entry i) =
        (List.finRange n).map ((Grid.exact cost).entry i) ++
          (List.finRange k).map fun far => Exact.finite (wide i (Fin.natAdd n far)) := by
      rw [finRange_add, List.map_append, List.map_map, List.map_map]
      congr 1
      · apply List.map_congr_left
        intro j _
        rw [Function.comp_apply, Grid.entry_exact, Grid.entry_exact, h.near_eq]
      · exact List.map_congr_left fun far _ => Grid.entry_exact wide i (Fin.natAdd n far)
    rw [row_widen, row_initial, row_initial, hentries, Scalar.minimum_append]
    intro other hother
    obtain ⟨far, -, rfl⟩ := List.mem_map.mp hother
    -- There is a row, so there is a near column, and its cost lies between the two.
    let j : Fin n := i.castLE hmn
    have hnear : Scalar.minimum ((List.finRange n).map ((Grid.exact cost).entry i)) ≤
        Exact.finite (cost i j) := by
      rw [← Grid.entry_exact cost i j]
      exact Exact.minimum_le (List.mem_map_of_mem (List.mem_finRange j))
    exact Exact.not_lt.mpr (Exact.le_trans hnear ((Exact.finite_le _ _).mpr (h.far_le i j far)))
  · intro j
    induction j using Fin.addCases with
    | left j => rw [col_widen_near, col_initial, col_initial]
    | right far => rw [col_widen_far, col_initial]

end Potentials
end LinearAssignment
