import LinearAssignment.Proofs.Matching.SymmetricDifference

/-! Matchings with a history: flips that follow each other from the empty matching, in any order and
along any paths. Each of them takes one row and one column out of the free ones and gives none back,
so a counter that goes up by one with every flip is at any time the number of pairs. -/
namespace LinearAssignment.Matching

structure Flip (m n : Nat) where
  root : Fin m
  col : Fin n
  parent : Array Nat

/-- Both ends are free, and the walk back from the column ends at the root. -/
structure Flip.Fits (flip : Flip m n) (matching : Matching m n) : Prop where
  free : matching.rowOf flip.col = none
  ends : ∃ steps, matching.WalkEnds flip.parent flip.col steps flip.root

def augmentAll (matching : Matching m n) (flips : List (Flip m n)) : Except Fault (Matching m n) :=
  flips.foldlM (fun current flip => current.augment flip.root.val flip.col.val flip.parent) matching

def Fitting (matching : Matching m n) : List (Flip m n) → Prop
  | [] => True
  | flip :: flips => flip.Fits matching ∧
      ∀ next, matching.augment flip.root.val flip.col.val flip.parent = .ok next →
        Fitting next flips

theorem augmentAll_cons_eq_ok {matching last : Matching m n} {flip : Flip m n}
    {flips : List (Flip m n)} :
    matching.augmentAll (flip :: flips) = .ok last ↔
      ∃ next, matching.augment flip.root.val flip.col.val flip.parent = .ok next ∧
        next.augmentAll flips = .ok last := by
  unfold augmentAll
  rw [List.foldlM_cons]
  cases haugment : matching.augment flip.root.val flip.col.val flip.parent with
  | error fault => simp [bind, Except.bind]
  | ok next => simp [bind, Except.bind]

theorem augmentAll_append_eq_ok {matching last : Matching m n} {first second : List (Flip m n)} :
    matching.augmentAll (first ++ second) = .ok last ↔
      ∃ next, matching.augmentAll first = .ok next ∧ next.augmentAll second = .ok last := by
  unfold augmentAll
  rw [List.foldlM_append]
  cases hfirst : first.foldlM (fun current flip =>
      current.augment flip.root.val flip.col.val flip.parent) matching with
  | error fault => simp [bind, Except.bind]
  | ok next => simp [bind, Except.bind]

/-- One matching comes from another by flips: so many pairs more, and nothing unmatched again. -/
structure Grows (matching : Matching m n) (count : Nat) (next : Matching m n) : Prop where
  consistent : next.Consistent
  counts : matching.Counts → next.Counts
  size_eq : next.size = matching.size + count
  rows_subset : matching.matchedRows ⊆ next.matchedRows
  cols_subset : matching.matchedCols ⊆ next.matchedCols

theorem Flip.Fits.exists_augment {flip : Flip m n} {matching : Matching m n}
    (h : flip.Fits matching) (hm : matching.Consistent) :
    ∃ next, matching.augment flip.root.val flip.col.val flip.parent = .ok next ∧
      Grows matching 1 next := by
  obtain ⟨steps, hwalk⟩ := h.ends
  obtain ⟨path, hpath, -⟩ := walkEnds_iff_path.mp hwalk
  refine ⟨_, hpath.augment_eq h.free, hpath.consistent_pairAll hm h.free,
    hpath.counts_countOne hm h.free, congrArg (· + 1) (matching.size_pairAll path), ?_, ?_⟩
  · rw [matchedRows_countOne, hpath.matchedRows_pairAll]
    exact Finset.subset_insert _ _
  · rw [matchedCols_countOne, hpath.matchedCols_pairAll hm]
    exact Finset.subset_insert _ _

theorem Fitting.exists_grows {matching : Matching m n} {flips : List (Flip m n)}
    (h : Fitting matching flips) (hm : matching.Consistent) :
    ∃ last, matching.augmentAll flips = .ok last ∧ Grows matching flips.length last := by
  induction flips generalizing matching with
  | nil => exact ⟨matching, rfl, hm, id, rfl, subset_rfl, subset_rfl⟩
  | cons flip flips ih =>
    obtain ⟨hfits, hrest⟩ := h
    obtain ⟨next, hnext, hstep⟩ := hfits.exists_augment hm
    obtain ⟨last, hlast, hrun⟩ := ih (hrest next hnext) hstep.consistent
    refine ⟨last, augmentAll_cons_eq_ok.mpr ⟨next, hnext, hlast⟩, hrun.consistent,
      hrun.counts ∘ hstep.counts, ?_, hstep.rows_subset.trans hrun.rows_subset,
      hstep.cols_subset.trans hrun.cols_subset⟩
    rw [hrun.size_eq, hstep.size_eq, List.length_cons, Nat.add_assoc, Nat.add_comm 1]

theorem Fitting.of_append {matching : Matching m n} {first second : List (Flip m n)}
    (h : Fitting matching (first ++ second)) :
    Fitting matching first ∧
      ∀ next, matching.augmentAll first = .ok next → Fitting next second := by
  induction first generalizing matching with
  | nil =>
    refine ⟨trivial, fun next hnext => ?_⟩
    cases hnext
    exact h
  | cons flip first ih =>
    obtain ⟨hfits, hrest⟩ := h
    refine ⟨⟨hfits, fun next hnext => (ih (hrest next hnext)).1⟩, fun last hlast => ?_⟩
    obtain ⟨next, hnext, hlast⟩ := augmentAll_cons_eq_ok.mp hlast
    exact (ih (hrest next hnext)).2 last hlast

/-- The views of a matching agree, and all of them show as many pairs as there have been flips. -/
structure Counted (count : Nat) (matching : Matching m n) : Prop where
  consistent : ∀ row col, matching.columnOf row = some col ↔ matching.rowOf col = some row
  size_eq : matching.size = count
  length_pairs : matching.pairs.length = count
  card_rows : matching.matchedRows.card = count
  card_cols : matching.matchedCols.card = count
  isEmpty_eq : matching.isEmpty = (count == 0)
  isComplete_eq : matching.isComplete = (count == m)
  ascending_free : matching.freeRows.Pairwise (· < ·)
  ascending_pairs : (matching.pairs.map Prod.fst).Pairwise (· < ·)
  partition : (matching.freeRows ++ matching.pairs.map Prod.fst).Perm (List.finRange m)
  isEmpty_iff : matching.isEmpty = true ↔ matching.pairs = []
  isComplete_iff : matching.isComplete = true ↔ matching.freeRows = []

theorem Grows.counted {matching : Matching m n} (h : Grows (empty m n) count matching) :
    Counted count matching := by
  have hsize : matching.size = count := by rw [h.size_eq, size_empty, Nat.zero_add]
  have hcounts := h.counts (counts_empty m n)
  have hlength : matching.pairs.length = count := hcounts.symm.trans hsize
  exact
    { consistent := h.consistent
      size_eq := hsize
      length_pairs := hlength
      card_rows := h.consistent.length_pairs_eq_card_rows.symm.trans hlength
      card_cols := h.consistent.length_pairs_eq_card_cols.symm.trans hlength
      isEmpty_eq := by rw [isEmpty, hsize]
      isComplete_eq := by rw [isComplete, hsize]
      ascending_free := matching.pairwise_freeRows
      ascending_pairs := List.pairwise_map.mpr matching.pairwise_pairs
      partition := matching.freeRows_append_pairs_perm
      isEmpty_iff := hcounts.isEmpty_iff
      isComplete_iff := hcounts.isComplete_iff }

/-- After any part of a history the views agree on the number of flips made so far, and everything
that an earlier part had matched is matched. -/
theorem exists_counted {flips : List (Flip m n)} (hflips : Fitting (empty m n) flips) :
    ∀ before, before <+: flips →
      ∃ matching, (empty m n).augmentAll before = .ok matching ∧
        Counted before.length matching ∧
        ∀ earlier, earlier <+: before → ∃ old, (empty m n).augmentAll earlier = .ok old ∧
          old.matchedRows ⊆ matching.matchedRows ∧ old.matchedCols ⊆ matching.matchedCols := by
  rintro before ⟨after, rfl⟩
  have hbefore := hflips.of_append.1
  obtain ⟨matching, hmatching, hgrows⟩ := hbefore.exists_grows (consistent_empty m n)
  refine ⟨matching, hmatching, hgrows.counted, ?_⟩
  rintro earlier ⟨later, rfl⟩
  obtain ⟨hearlier, hlater⟩ := hbefore.of_append
  obtain ⟨old, hold, hgrowsOld⟩ := hearlier.exists_grows (consistent_empty m n)
  obtain ⟨last, hlast, hgrowsLast⟩ := (hlater old hold).exists_grows hgrowsOld.consistent
  cases hmatching.symm.trans (augmentAll_append_eq_ok.mpr ⟨old, hold, hlast⟩)
  exact ⟨old, hold, hgrowsLast.rows_subset, hgrowsLast.cols_subset⟩

theorem exists_counted_three_by_three :
    let flips : List (Flip 3 3) :=
      [⟨0, 0, #[0, 0, 0]⟩, ⟨2, 1, #[2, 0, 0]⟩, ⟨1, 2, #[1, 2, 1]⟩]
    Fitting (empty 3 3) flips ∧
      ∀ before, before <+: flips →
        ∃ matching, (empty 3 3).augmentAll before = .ok matching ∧
          Counted before.length matching ∧
          ∀ earlier, earlier <+: before → ∃ old, (empty 3 3).augmentAll earlier = .ok old ∧
            old.matchedRows ⊆ matching.matchedRows ∧ old.matchedCols ⊆ matching.matchedCols := by
  intro flips
  have hflips : Fitting (empty 3 3) flips := by
    refine ⟨⟨rfl, 0, 0, rfl, rfl⟩, ?_⟩
    rintro _ ⟨⟩
    refine ⟨⟨rfl, 1, 0, rfl, rfl⟩, ?_⟩
    rintro _ ⟨⟩
    refine ⟨⟨rfl, 0, 2, rfl, rfl⟩, ?_⟩
    rintro _ ⟨⟩
    trivial
  exact ⟨hflips, exists_counted hflips⟩

end LinearAssignment.Matching
