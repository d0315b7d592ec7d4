import LinearAssignment.Proofs.Matching.Pairs
import LinearAssignment.Proofs.Matching.Walk

/-! The exact effect of flipping a path. Every row of the path takes the column from which it was
reached, and all but the root give up the one that they had, which is the next on the path. So what
is matched afterwards is the symmetric difference with the alternating path. -/
namespace LinearAssignment.Matching

/-- The pairs that a path takes apart: each row with the column that comes after it. -/
def released : List (Fin m × Fin n) → List (Fin m × Fin n)
  | pair :: next :: path => (pair.1, next.2) :: released (next :: path)
  | _ => []

/-- What the flip of a path makes of a matching: the pairs of the path are there in place of those
that it takes apart, and rows and columns off the path are as they were. -/
structure Flipped (matching : Matching m n) (path : List (Fin m × Fin n)) (next : Matching m n) :
    Prop where
  consistent : next.Consistent
  pairs_eq : next.pairs.toFinset =
    matching.pairs.toFinset \ (released path).toFinset ∪ path.toFinset
  released_subset : (released path).toFinset ⊆ matching.pairs.toFinset
  disjoint : Disjoint path.toFinset matching.pairs.toFinset
  pairs_eq_symmDiff : next.pairs.toFinset =
    symmDiff matching.pairs.toFinset (path.toFinset ∪ (released path).toFinset)
  nodup_rows : (path.map Prod.fst).Nodup
  nodup_cols : (path.map Prod.snd).Nodup
  columnOf_eq : ∀ row ∉ path.map Prod.fst, next.columnOf row = matching.columnOf row
  rowOf_eq : ∀ j ∉ path.map Prod.snd, next.rowOf j = matching.rowOf j
  size_eq : next.size = matching.size + 1
  length_pairs_eq : next.pairs.length = matching.pairs.length + 1

namespace Path

variable {matching : Matching m n} {parent : Array Nat} {root : Fin m}

theorem released_cons (h : Path matching parent root next path) (row : Fin m) (col : Fin n) :
    released ((row, col) :: path) = (row, next) :: released path := by
  cases h <;> rfl

theorem mem_released (h : Path matching parent root col path) :
    (row, j) ∈ released path ↔ row ∈ path.map Prod.fst ∧ matching.columnOf row = some j := by
  induction h with
  | last hparent hfree =>
    have hroot : row = root → ¬matching.columnOf row = some j := by
      rintro rfl hrow
      cases hfree.symm.trans hrow
    simpa [released] using hroot
  | @step holder next path col hparent hreleased rest ih =>
    rw [rest.released_cons, List.mem_cons, List.map_cons, List.mem_cons, ih, or_and_right]
    apply or_congr_left
    rw [Prod.mk.injEq]
    constructor
    · rintro ⟨rfl, rfl⟩
      exact ⟨rfl, hreleased⟩
    · rintro ⟨rfl, hrow⟩
      exact ⟨rfl, Option.some.inj (hrow.symm.trans hreleased)⟩

theorem columnOf_ne_of_mem (h : Path matching parent root col path) (hmem : (row, j) ∈ path) :
    matching.columnOf row ≠ some j := by
  induction h with
  | last hparent hfree =>
    cases List.mem_singleton.mp hmem
    rintro hrow
    cases hfree.symm.trans hrow
  | step hparent hreleased rest ih =>
    have hcol := (List.nodup_cons.mp (Path.step hparent hreleased rest).nodup_cols).1
    rcases List.mem_cons.mp hmem with heq | htail
    · cases heq
      rintro hrow
      cases hreleased.symm.trans hrow
      exact hcol rest.col_mem
    · exact ih htail

theorem mem_pairs_pairAll (h : Path matching parent root col path) :
    (row, j) ∈ (matching.pairAll path).pairs ↔
      (row, j) ∈ path ∨ (row, j) ∈ matching.pairs ∧ (row, j) ∉ released path := by
  rw [mem_pairs, mem_pairs, h.columnOf_pairAll, h.mem_released, not_and_or]
  apply or_congr_right
  tauto

theorem flipped (h : Path matching parent root col path) (hm : matching.Consistent)
    (hcol : matching.rowOf col = none) :
    Flipped matching path (matching.pairAll path).countOne := by
  have hold : ∀ row j, (row, j) ∈ released path → (row, j) ∈ matching.pairs :=
    fun row j hmem => mem_pairs.mpr (h.mem_released.mp hmem).2
  have hnew : ∀ row j, (row, j) ∈ path → (row, j) ∉ matching.pairs :=
    fun row j hmem hpair => h.columnOf_ne_of_mem hmem (mem_pairs.mp hpair)
  refine
    { consistent := h.consistent_pairAll hm hcol, pairs_eq := ?pairs_eq
      released_subset := ?released_subset, disjoint := ?disjoint
      pairs_eq_symmDiff := ?pairs_eq_symmDiff, nodup_rows := h.nodup_rows
      nodup_cols := h.nodup_cols, columnOf_eq := fun row => columnOf_pairAll_of_not_mem
      rowOf_eq := fun j => rowOf_pairAll_of_not_mem
      size_eq := congrArg (· + 1) (matching.size_pairAll path)
      length_pairs_eq := h.length_pairs_pairAll hm hcol }
  case pairs_eq =>
    rw [pairs_countOne]
    ext ⟨row, j⟩
    simp only [Finset.mem_union, Finset.mem_sdiff, List.mem_toFinset, h.mem_pairs_pairAll]
    exact or_comm
  case released_subset =>
    rintro ⟨row, j⟩ hmem
    exact List.mem_toFinset.mpr (hold row j (List.mem_toFinset.mp hmem))
  case disjoint =>
    rw [Finset.disjoint_left]
    rintro ⟨row, j⟩ hmem hpair
    exact hnew row j (List.mem_toFinset.mp hmem) (List.mem_toFinset.mp hpair)
  case pairs_eq_symmDiff =>
    rw [pairs_countOne]
    ext ⟨row, j⟩
    simp only [Finset.mem_symmDiff, Finset.mem_union, List.mem_toFinset, h.mem_pairs_pairAll]
    have hold := hold row j
    have hnew := hnew row j
    tauto

end Path

/-- A flip along a walk that ends at the root goes through. What is matched afterwards are the old
pairs without those that the walk takes apart, and with each column of the walk at its parent
row. -/
theorem exists_flipped {matching : Matching m n} {parent : Array Nat} {root : Fin m} {col : Fin n}
    (hm : matching.Consistent) (hcol : matching.rowOf col = none)
    (hwalk : matching.WalkEnds parent col steps root) :
    ∃ path next, path.length = steps + 1 ∧ (∀ t, matching.walk parent col t = path[t]?) ∧
      matching.augment root.val col.val parent = .ok next ∧ Flipped matching path next := by
  obtain ⟨path, hpath, hlength⟩ := walkEnds_iff_path.mp hwalk
  exact ⟨path, _, hlength, hpath.walk_eq, hpath.augment_eq hcol, hpath.flipped hm hcol⟩

theorem exists_flipped_four_by_four :
    let matching : Matching 4 4 :=
      ⟨#v[some 1, some 0, none, some 3], #v[some 1, some 0, none, some 3], 3⟩
    matching.Consistent ∧ matching.rowOf 2 = none ∧ matching.WalkEnds #[0, 2, 1, 0] 2 2 2 ∧
      ∃ path next, path.length = 2 + 1 ∧
        (∀ t, matching.walk #[0, 2, 1, 0] 2 t = path[t]?) ∧
        matching.augment 2 2 #[0, 2, 1, 0] = .ok next ∧ Flipped matching path next := by
  intro matching
  have hm : matching.Consistent := by unfold Matching.Consistent; decide
  have hwalk : matching.WalkEnds #[0, 2, 1, 0] 2 2 2 := ⟨1, rfl, rfl⟩
  exact ⟨hm, rfl, hwalk, exists_flipped hm rfl hwalk⟩

end LinearAssignment.Matching
