import LinearAssignment.Potentials
import Mathlib.Data.Fin.SuccPred
import Mathlib.Tactic

/-! Tables of costs inside other ones. A table may make up the first rows of a taller table, and be
written there in other numbers, as long as these compare and subtract alike. Nothing that a search
looks at tells the two tables apart. -/
namespace LinearAssignment

theorem castLE_or_le (h : m ≤ k) (i : Fin k) : (∃ i' : Fin m, i = i'.castLE h) ∨ m ≤ i.val := by
  rcases Nat.lt_or_ge i.val m with hi | hi
  · exact .inl ⟨⟨i, hi⟩, rfl⟩
  · exact .inr hi

/-- Costs go over into the first rows of another table. Each row has a level at which its costs and
its potential are read; slacks, steps and potentials of columns are gaps, which all rows share. -/
structure Embedding [Scalar α] [Scalar β] (costs : Grid α m n) (costs' : Grid β k n) where
  le : m ≤ k
  level : Fin m → α → β
  gap : α → β
  entry_eq : ∀ i j, costs'.entry (i.castLE le) j = level i (costs.entry i j)
  level_lt : ∀ i x y, level i x < level i y ↔ x < y
  level_infinity : ∀ i, level i Scalar.infinity = Scalar.infinity
  level_add : ∀ i x step, level i (x + step) = level i x + gap step
  level_sub : ∀ i x y, level i x - level i y = gap (x - y)
  gap_zero : gap 0 = 0
  gap_infinity : gap Scalar.infinity = Scalar.infinity
  gap_sub : ∀ x y, gap (x - y) = gap x - gap y
  gap_lt : ∀ x y, gap x < gap y ↔ x < y
  gap_le : ∀ x y, gap x ≤ gap y ↔ x ≤ y

theorem Scalar.minimum_map [Scalar α] [Scalar β] {f : α → β} (hlt : ∀ x y, f x < f y ↔ x < y)
    (hinfinity : f infinity = infinity) (values : List α) :
    minimum (values.map f) = f (minimum values) := by
  have hfold (lowest : α) :
      (values.map f).foldl (fun lowest value => if value < lowest then value else lowest)
        (f lowest) =
      f (values.foldl (fun lowest value => if value < lowest then value else lowest) lowest) := by
    induction values generalizing lowest with
    | nil => rfl
    | cons value values ih =>
      rw [List.map_cons, List.foldl_cons, List.foldl_cons, ← ih]
      congr 1
      by_cases h : value < lowest
      · rw [if_pos h, if_pos ((hlt _ _).mpr h)]
      · rw [if_neg h, if_neg ((hlt _ _).not.mpr h)]
  rw [minimum, ← hinfinity]
  exact hfold infinity

namespace Embedding

variable [Scalar α] [Scalar β] {costs : Grid α m n} {costs' : Grid β k n}

theorem gap_pos (e : Embedding costs costs') (x : α) : 0 < e.gap x ↔ 0 < x := by
  rw [← e.gap_zero, e.gap_lt]

end Embedding

namespace Potentials

variable [Scalar α] [Scalar β] {costs : Grid α m n} {costs' : Grid β k n}

def embed (e : Embedding costs costs') (potentials : Potentials α m n) : Potentials β k n :=
  ofFn (fun i => if h : i.val < m then e.level ⟨i, h⟩ (potentials.row ⟨i, h⟩)
    else (initial costs').row i) fun j => e.gap (potentials.col j)

@[simp] theorem row_embed (e : Embedding costs costs') (potentials : Potentials α m n)
    (i : Fin m) : (potentials.embed e).row (i.castLE e.le) = e.level i (potentials.row i) := by
  simp [embed]

theorem row_embed_of_le (e : Embedding costs costs') (potentials : Potentials α m n) {i : Fin k}
    (h : m ≤ i.val) : (potentials.embed e).row i = (initial costs').row i := by
  simp [embed, Nat.not_lt.mpr h]

@[simp] theorem col_embed (e : Embedding costs costs') (potentials : Potentials α m n)
    (j : Fin n) : (potentials.embed e).col j = e.gap (potentials.col j) := by
  simp [embed]

theorem slack_embed (e : Embedding costs costs') (potentials : Potentials α m n) (i : Fin m)
    (j : Fin n) :
    (potentials.embed e).slack costs' (i.castLE e.le) j = e.gap (potentials.slack costs i j) := by
  rw [slack, slack, row_embed, col_embed, e.entry_eq, e.level_sub, ← e.gap_sub]

theorem initial_embed (e : Embedding costs costs') : (initial costs).embed e = initial costs' := by
  apply Potentials.ext
  · intro i
    obtain ⟨i, rfl⟩ | h := castLE_or_le e.le i
    · have hentries : (List.finRange n).map (costs'.entry (i.castLE e.le)) =
          ((List.finRange n).map (costs.entry i)).map (e.level i) := by
        rw [List.map_map]
        exact List.map_congr_left fun j _ => e.entry_eq i j
      rw [row_embed, row_initial, row_initial, hentries,
        Scalar.minimum_map (e.level_lt i) (e.level_infinity i)]
    · exact row_embed_of_le e _ h
  · intro j
    rw [col_embed, col_initial, col_initial, e.gap_zero]

theorem shift_embed (e : Embedding costs costs') (potentials : Potentials α m n)
    (rows : List (Fin m)) (cols : List (Fin n)) (step : α) :
    (potentials.embed e).shift (rows.map (Fin.castLE e.le)) cols (e.gap step) =
      (potentials.shift rows cols step).embed e := by
  apply Potentials.ext
  · intro i
    obtain ⟨i, rfl⟩ | h := castLE_or_le e.le i
    · have hmem : (rows.map (Fin.castLE e.le)).contains (i.castLE e.le) = rows.contains i := by
        rw [Bool.eq_iff_iff, List.contains_iff_mem, List.contains_iff_mem,
          List.mem_map_of_injective (Fin.castLE_injective e.le)]
      rw [row_shift, row_embed, row_embed, row_shift, hmem]
      split
      · rw [e.level_add]
      · rfl
    · -- No row of the list lies below the embedded ones.
      have hmem : (rows.map (Fin.castLE e.le)).contains i = false := by
        rw [Bool.eq_false_iff, Ne, List.contains_iff_mem, List.mem_map]
        rintro ⟨i', -, rfl⟩
        exact absurd i'.isLt (Nat.not_lt.mpr h)
      rw [row_shift, row_embed_of_le e _ h, row_embed_of_le e _ h, hmem]
      rfl
  · intro j
    rw [col_shift, col_embed, col_embed, col_shift]
    split
    · rw [e.gap_sub]
    · rfl

end Potentials
end LinearAssignment
