import LinearAssignment.Proofs.Matching.Pairs
import LinearAssignment.Proofs.Search.Indexed

/-! Every search ends, and ends well, whatever its numbers do. No law of arithmetic or of order is
used, so comparisons may all be false, as they are where numbers are missing; what bounds the search
is that the columns before the last are matched, each to a row of its own. -/
namespace LinearAssignment.Search

/-- What a search has visited when it ends at a column, and that a path from this column may be
flipped. -/
structure Ended [Scalar α] (costs : Grid α m n) (matching : Matching m n) (root : Fin m)
    (col : Fin n) (last : Search α m n) : Prop where
  nodup_cols : last.cols.Nodup
  nodup_rows : last.rows.Nodup
  /-- The last column is the only free one. -/
  cols_eq : ∃ older, last.cols = col :: older ∧ ∀ j ∈ older, matching.rowOf j ≠ none
  free : matching.rowOf col = none
  length_cols_le : last.cols.length ≤ matching.size + 1
  augment_eq : ∀ parent, matching.augment root.val col.val parent =
    (matching.flip parent m col).map Matching.countOne

variable {matching : Matching m n} {root : Fin m}

theorem Spans.length_cols_le {tree : Workspace α m n} (h : Spans matching root tree)
    (hm : matching.Consistent) : tree.cols.length ≤ matching.pairs.length := by
  have hsubset : tree.cols.toFinset ⊆ matching.matchedCols := by
    intro j hj
    obtain ⟨row, hrow⟩ := h.exists_owner (List.mem_toFinset.mp hj)
    rw [Matching.mem_matchedCols, hrow]
    exact Option.some_ne_none row
  rw [hm.length_pairs_eq_card_cols, ← List.toFinset_card_of_nodup h.nodup_cols]
  exact Finset.card_le_card hsubset

variable [Scalar α] {costs : Grid α m n}

theorem Spans.ended {search last : Search α m n} (h : Spans matching root search.toWorkspace)
    (hm : matching.Consistent) (hcounts : matching.Counts)
    (hroot : matching.columnOf root = none)
    (hlast : search.advance costs row = some (col, last)) (hfree : matching.rowOf col = none) :
    Ended costs matching root col last := by
  obtain ⟨hcol, hcols, hrows⟩ := cols_of_advance hlast
  refine
    { nodup_cols := ?nodup_cols, nodup_rows := ?nodup_rows, cols_eq := ⟨search.cols, hcols, ?owned⟩
      free := hfree, length_cols_le := ?length_cols_le
      augment_eq := fun parent => matching.augment_val parent hroot hfree }
  case nodup_cols =>
    rw [hcols]
    exact List.nodup_cons.mpr ⟨hcol, h.nodup_cols⟩
  case nodup_rows =>
    rw [hrows]
    exact h.nodup_rows hm hroot
  case owned =>
    intro j hj
    obtain ⟨owner, howner⟩ := h.exists_owner hj
    rw [howner]
    exact Option.some_ne_none owner
  case length_cols_le =>
    rw [hcols, List.length_cons, hcounts]
    exact Nat.succ_le_succ (h.length_cols_le hm)

theorem ended_of_run {workspace : Workspace α m n} {potentials : Potentials α m n}
    {last : Search α m n} (hm : matching.Consistent) (hcounts : matching.Counts)
    (hroot : matching.columnOf root = none)
    (hrun : run costs matching workspace potentials root = .ok (col, last)) :
    Ended costs matching root col last := by
  obtain ⟨row, search, hspans, hlast, hfree⟩ :=
    grow_last (fun _ search => Spans matching root search.toWorkspace)
      (fun _ _ _ _ _ h hnext howner => h.advance hnext howner)
      (spans_start matching workspace potentials root) hrun
  exact hspans.ended hm hcounts hroot hlast hfree

/-- A search from a free row of a matching whose two sides agree finds a free column, with any
numbers and in any workspace. The loops over arrays find it too, so none of their reads and writes
is out of range. -/
theorem exists_ended (costs : Grid α m n) (workspace : Workspace α m n)
    (potentials : Potentials α m n) (hm : matching.Consistent) (hcounts : matching.Counts)
    (hmn : m ≤ n) (hroot : matching.columnOf root = none) :
    ∃ col last, run costs matching workspace potentials root = .ok (col, last) ∧
      Indexed.run costs matching workspace potentials root.val =
        .ok (col.val, Indexed.ofSearch last) ∧
      Ended costs matching root col last := by
  obtain ⟨col, last, hrun⟩ : ∃ col last, run costs matching workspace potentials root =
      .ok (col, last) := run_ok hm hroot hmn workspace potentials
  refine ⟨col, last, hrun, ?_, ended_of_run hm hcounts hroot hrun⟩
  rw [Indexed.run_eq costs hm hroot, hrun]
  rfl

theorem exists_ended_two_by_three :
    let nan : Float := 0.0 / 0.0
    let costs : Grid Float 2 3 := Grid.ofFn fun _ _ => nan
    let potentials : Potentials Float 2 3 := Potentials.ofFn (fun _ => nan) fun _ => nan
    let workspace : Workspace Float 2 3 :=
      ⟨#v[nan, nan, nan], #v[7, 8, 9], #v[true, false, true], [0, 0], [2, 2]⟩
    let matching : Matching 2 3 := ⟨#v[some 0, none], #v[some 0, none, none], 1⟩
    matching.Consistent ∧ matching.Counts ∧ matching.columnOf 1 = none ∧
      ∃ col last, run costs matching workspace potentials 1 = .ok (col, last) ∧
        Indexed.run costs matching workspace potentials 1 =
          .ok (col.val, Indexed.ofSearch last) ∧
        Ended costs matching 1 col last := by
  intro nan costs potentials workspace matching
  have hm : matching.Consistent := by unfold Matching.Consistent; decide
  have hcounts : matching.Counts := by unfold Matching.Counts; decide
  exact ⟨hm, hcounts, rfl, exists_ended costs workspace potentials hm hcounts (by decide) rfl⟩

end LinearAssignment.Search
