import LinearAssignment.Proofs.Matching.Path
import LinearAssignment.Proofs.Pairing

/-! The pairs of a matching, in the order of their rows. There are as many of them as there are
matched rows, and when the two sides of the matching agree as many as there are matched columns. The
counter of the matching is a number of its own; that it is the number of pairs is kept by flips. -/
namespace LinearAssignment.Matching

theorem pairwise_pairs (matching : Matching m n) :
    matching.pairs.Pairwise fun pair other => pair.1 < other.1 := by
  unfold pairs
  rw [List.pairwise_filterMap]
  apply (List.pairwise_lt_finRange m).imp
  intro row row' hlt pair hpair other hother
  obtain ⟨col, -, rfl⟩ := Option.map_eq_some_iff.mp hpair
  obtain ⟨col', -, rfl⟩ := Option.map_eq_some_iff.mp hother
  exact hlt

theorem nodup_pairs (matching : Matching m n) : matching.pairs.Nodup :=
  matching.pairwise_pairs.imp fun hlt heq => absurd (congrArg Prod.fst heq) (ne_of_lt hlt)

theorem Consistent.isPairing {matching : Matching m n} (h : matching.Consistent) :
    IsPairing matching.pairs.toFinset := by
  constructor
  · rintro ⟨row, col⟩ hpair ⟨row', col'⟩ hother (rfl : row = row')
    rw [List.mem_toFinset, mem_pairs] at hpair hother
    cases hpair.symm.trans hother
    rfl
  · rintro ⟨row, col⟩ hpair ⟨row', col'⟩ hother (rfl : col = col')
    rw [List.mem_toFinset, mem_pairs, h] at hpair hother
    cases hpair.symm.trans hother
    rfl

theorem card_pairs (matching : Matching m n) :
    matching.pairs.toFinset.card = matching.pairs.length :=
  List.toFinset_card_of_nodup matching.nodup_pairs

theorem length_pairs_of_matched {matching : Matching m n}
    (h : ∀ row, matching.columnOf row ≠ none) : matching.pairs.length = m := by
  have hrows : matching.pairs.map Prod.fst = List.finRange m := by
    rw [pairs, List.map_filterMap]
    refine (List.filterMap_congr fun row _ => ?_).trans List.filterMap_some
    obtain ⟨col, hcol⟩ := Option.ne_none_iff_exists'.mp (h row)
    simp [hcol]
  simpa using congrArg List.length hrows

theorem pairwise_freeRows (matching : Matching m n) : matching.freeRows.Pairwise (· < ·) :=
  (List.pairwise_lt_finRange m).filter _

theorem map_fst_pairs (matching : Matching m n) :
    matching.pairs.map Prod.fst =
      (List.finRange m).filter fun row => !(matching.columnOf row).isNone := by
  rw [pairs, List.map_filterMap, ← List.filterMap_eq_filter]
  apply List.filterMap_congr
  intro row _
  cases hrow : matching.columnOf row <;> simp [Option.guard, hrow]

theorem freeRows_append_pairs_perm (matching : Matching m n) :
    (matching.freeRows ++ matching.pairs.map Prod.fst).Perm (List.finRange m) := by
  rw [map_fst_pairs]
  exact List.filter_append_perm _ _

theorem length_freeRows_add_length_pairs (matching : Matching m n) :
    matching.freeRows.length + matching.pairs.length = m := by
  simpa using matching.freeRows_append_pairs_perm.length_eq

/-- The counter is the number of pairs. -/
def Counts (matching : Matching m n) : Prop := matching.size = matching.pairs.length

theorem counts_empty (m n : Nat) : (empty m n).Counts := by
  simp [Counts, pairs]

theorem Counts.isEmpty_iff {matching : Matching m n} (h : matching.Counts) :
    matching.isEmpty = true ↔ matching.pairs = [] := by
  rw [isEmpty, beq_iff_eq, h, List.length_eq_zero_iff]

theorem Counts.isComplete_iff {matching : Matching m n} (h : matching.Counts) :
    matching.isComplete = true ↔ matching.freeRows = [] := by
  have hlength := matching.length_freeRows_add_length_pairs
  rw [isComplete, beq_iff_eq, h, ← List.length_eq_zero_iff]
  omega

def matchedRows (matching : Matching m n) : Finset (Fin m) :=
  Finset.univ.filter fun row => matching.columnOf row ≠ none

def matchedCols (matching : Matching m n) : Finset (Fin n) :=
  Finset.univ.filter fun col => matching.rowOf col ≠ none

@[simp] theorem mem_matchedRows {matching : Matching m n} :
    row ∈ matching.matchedRows ↔ matching.columnOf row ≠ none := by
  simp [matchedRows]

@[simp] theorem mem_matchedCols {matching : Matching m n} :
    col ∈ matching.matchedCols ↔ matching.rowOf col ≠ none := by
  simp [matchedCols]

theorem matchedRows_countOne (matching : Matching m n) :
    matching.countOne.matchedRows = matching.matchedRows := rfl

theorem matchedCols_countOne (matching : Matching m n) :
    matching.countOne.matchedCols = matching.matchedCols := rfl

theorem image_fst_pairs (matching : Matching m n) :
    matching.pairs.toFinset.image Prod.fst = matching.matchedRows := by
  ext row
  simp [Option.ne_none_iff_exists']

theorem Consistent.image_snd_pairs {matching : Matching m n} (h : matching.Consistent) :
    matching.pairs.toFinset.image Prod.snd = matching.matchedCols := by
  ext col
  simp [Option.ne_none_iff_exists', h _ col]

theorem Consistent.length_pairs_eq_card_rows {matching : Matching m n} (h : matching.Consistent) :
    matching.pairs.length = matching.matchedRows.card := by
  rw [← card_pairs, ← image_fst_pairs, h.isPairing.card_image_fst]

theorem Consistent.length_pairs_eq_card_cols {matching : Matching m n} (h : matching.Consistent) :
    matching.pairs.length = matching.matchedCols.card := by
  rw [← card_pairs, ← h.image_snd_pairs, h.isPairing.card_image_snd]

namespace Path

variable {matching : Matching m n} {parent : Array Nat} {root : Fin m}

theorem matchedRows_pairAll (h : Path matching parent root col path) :
    (matching.pairAll path).matchedRows = insert root matching.matchedRows := by
  ext row
  rw [Finset.mem_insert, mem_matchedRows, mem_matchedRows, Ne, h.columnOf_pairAll_eq_none,
    not_and_or, not_not, or_comm]

theorem matchedCols_pairAll (h : Path matching parent root col path) (hm : matching.Consistent) :
    (matching.pairAll path).matchedCols = insert col matching.matchedCols := by
  ext j
  rw [Finset.mem_insert, mem_matchedCols, mem_matchedCols, Ne, h.rowOf_pairAll_eq_none hm,
    not_and_or, not_not, or_comm]

theorem length_pairs_pairAll (h : Path matching parent root col path) (hm : matching.Consistent)
    (hcol : matching.rowOf col = none) :
    (matching.pairAll path).pairs.length = matching.pairs.length + 1 := by
  have hroot : root ∉ matching.matchedRows := by simp [h.root_free]
  rw [(h.consistent_pairAll hm hcol).length_pairs_eq_card_rows, hm.length_pairs_eq_card_rows,
    h.matchedRows_pairAll, Finset.card_insert_of_notMem hroot]

theorem counts_countOne (h : Path matching parent root col path) (hm : matching.Consistent)
    (hcol : matching.rowOf col = none) (hcounts : matching.Counts) :
    (matching.pairAll path).countOne.Counts := by
  change (matching.pairAll path).size + 1 = (matching.pairAll path).pairs.length
  rw [size_pairAll, hcounts, h.length_pairs_pairAll hm hcol]

end Path
end LinearAssignment.Matching
