import LinearAssignment.Proofs.Matching.Path
import LinearAssignment.Proofs.Search.Rounds

/-! How a search tree grows, whatever the numbers do. Every column of the tree brought in its
owner, and owners are different, so a free column is found before the columns run out. Once the
root has been compared with every column, parents lead from each column to an older row of the
tree, and the way back along them ends at the root. -/
namespace LinearAssignment.Search

/-- The rows of a tree are the owners of its columns, in the same order, and at last the root. -/
structure Spans (matching : Matching m n) (root : Fin m) (tree : Workspace α m n) : Prop where
  owners : tree.rows.map some = tree.cols.map matching.rowOf ++ [some root]
  nodup_cols : tree.cols.Nodup

namespace Spans

variable {matching : Matching m n} {root : Fin m} {tree : Workspace α m n}

theorem length_rows (h : Spans matching root tree) :
    tree.rows.length = tree.cols.length + 1 := by
  simpa using congrArg List.length h.owners

theorem mem_rows (h : Spans matching root tree) :
    row ∈ tree.rows ↔ row = root ∨ ∃ col ∈ tree.cols, matching.rowOf col = some row := by
  have hmem : some row ∈ tree.rows.map some ↔
      some row ∈ tree.cols.map matching.rowOf ++ [some root] := by rw [h.owners]
  simpa [or_comm] using hmem

theorem root_mem (h : Spans matching root tree) : root ∈ tree.rows :=
  h.mem_rows.mpr (Or.inl rfl)

theorem exists_owner (h : Spans matching root tree) (hcol : col ∈ tree.cols) :
    ∃ row, matching.rowOf col = some row := by
  have hmem : matching.rowOf col ∈ tree.rows.map some := by
    rw [h.owners]
    exact List.mem_append_left _ (List.mem_map_of_mem hcol)
  obtain ⟨row, -, hrow⟩ := List.mem_map.mp hmem
  exact ⟨row, hrow.symm⟩

theorem owner_mem_rows (h : Spans matching root tree) (hcol : col ∈ tree.cols)
    (hrow : matching.rowOf col = some row) : row ∈ tree.rows :=
  h.mem_rows.mpr (Or.inr ⟨col, hcol, hrow⟩)

theorem row_mem_iff_col_mem (h : Spans matching root tree) (hm : matching.Consistent)
    (hroot : matching.columnOf root = none) (hpair : matching.columnOf row = some col) :
    row ∈ tree.rows ↔ col ∈ tree.cols := by
  constructor
  · intro hrow
    rcases h.mem_rows.mp hrow with rfl | ⟨j, hj, hown⟩
    · cases hroot.symm.trans hpair
    · cases hpair.symm.trans ((hm row j).mpr hown)
      exact hj
  · exact fun hcol => h.owner_mem_rows hcol ((hm row col).mp hpair)

theorem nodup_rows (h : Spans matching root tree) (hm : matching.Consistent)
    (hroot : matching.columnOf root = none) : tree.rows.Nodup := by
  have howners : (tree.cols.map matching.rowOf ++ [some root]).Nodup := by
    rw [List.nodup_append]
    refine ⟨?_, List.nodup_singleton _, ?_⟩
    · apply h.nodup_cols.map_on
      intro j hj k hk heq
      obtain ⟨row, hrow⟩ := h.exists_owner hj
      have hj' := (hm row j).mpr hrow
      have hk' := (hm row k).mpr (heq.symm.trans hrow)
      exact Option.some.inj (hj'.symm.trans hk')
    · rintro owner howner _ hsingle rfl
      obtain ⟨j, -, hj⟩ := List.mem_map.mp howner
      rw [List.mem_singleton.mp hsingle] at hj
      cases hroot.symm.trans ((hm root j).mpr hj)
  rw [← h.owners] at howners
  exact howners.of_map some

theorem length_cols_lt (h : Spans matching root tree) (hm : matching.Consistent)
    (hroot : matching.columnOf root = none) : tree.cols.length < m := by
  have hrows := (h.nodup_rows hm hroot).length_le_card
  rw [h.length_rows, Fintype.card_fin] at hrows
  omega

theorem outside_ne_nil {search : Search α m n} (h : Spans matching root search.toWorkspace)
    (hm : matching.Consistent) (hroot : matching.columnOf root = none) (hmn : m ≤ n) :
    search.outside ≠ [] := by
  have hlt := h.length_cols_lt hm hroot
  obtain ⟨col, -, hcol⟩ : ∃ col ∈ (Finset.univ : Finset (Fin n)), col ∉ search.cols.toFinset := by
    apply Finset.exists_mem_notMem_of_card_lt_card
    rw [Finset.card_univ, Fintype.card_fin]
    exact lt_of_le_of_lt (List.toFinset_card_le _) (by omega)
  rw [List.mem_toFinset] at hcol
  exact List.ne_nil_of_mem (mem_outside.mpr hcol)

end Spans

/-- Each column was reached through a row that was older in the tree than its owner is. -/
inductive Descends (parent : Fin n → Nat) : List (Fin m) → List (Fin n) → Prop where
  | root : Descends parent [row] []
  | visit (hmem : row ∈ rows) (hparent : parent col = row.val)
      (older : Descends parent rows cols) : Descends parent (owner :: rows) (col :: cols)

theorem Descends.congr {parent parent' : Fin n → Nat} {rows : List (Fin m)}
    (h : Descends parent rows cols) (heq : ∀ col ∈ cols, parent' col = parent col) :
    Descends parent' rows cols := by
  induction h with
  | root => exact .root
  | visit hmem hparent older ih =>
    refine .visit hmem ((heq _ List.mem_cons_self).trans hparent) (ih fun col hcol => ?_)
    exact heq col (List.mem_cons_of_mem _ hcol)

theorem parentRow_of_get {parents : Vector Nat n} {row : Fin m} (h : parents.get col = row.val) :
    Matching.parentRow m parents.toArray col.val = .ok row := by
  have hget : parents[col.val] = row.val := h
  simp [Matching.parentRow, hget]

theorem parentRow_congr {parents other : Vector Nat n} (h : parents.get col = other.get col) :
    Matching.parentRow m parents.toArray col.val =
      Matching.parentRow m other.toArray col.val := by
  have hget : parents[col.val] = other[col.val] := h
  simp [Matching.parentRow, hget]

theorem Descends.parent_mem {parent : Fin n → Nat} {rows : List (Fin m)}
    (h : Descends parent rows cols) (hcol : col ∈ cols) :
    ∃ row ∈ rows, parent col = row.val := by
  induction h with
  | root => cases hcol
  | visit hmem hparent older ih =>
    rcases List.mem_cons.mp hcol with rfl | htail
    · exact ⟨_, List.mem_cons_of_mem _ hmem, hparent⟩
    · obtain ⟨row, hrow, heq⟩ := ih htail
      exact ⟨row, List.mem_cons_of_mem _ hrow, heq⟩

/-- The way back from any column that has a row of the tree as its parent ends at the root, and
meets no other column outside the tree. -/
theorem Descends.exists_path {parents : Vector Nat n} {rows : List (Fin m)}
    {matching : Matching m n} {root : Fin m} (h : Descends parents.get rows cols)
    (howners : rows.map some = cols.map matching.rowOf ++ [some root])
    (hm : matching.Consistent) (hroot : matching.columnOf root = none) (hrow : row ∈ rows)
    (hparent : parents.get col = row.val) :
    ∃ path, matching.Path parents.toArray root col path ∧ ∀ pair ∈ path, pair.2 ∈ col :: cols := by
  -- The tree shrinks from its newest row, and with it the rows that can be a parent.
  induction h generalizing row col with
  | root =>
    cases howners
    cases List.mem_singleton.mp hrow
    exact ⟨_, .last (parentRow_of_get hparent) hroot, by simp⟩
  | @visit holder rows j cols owner hmem hreached older ih =>
    rw [List.map_cons, List.map_cons, List.cons_append, List.cons.injEq] at howners
    rcases List.mem_cons.mp hrow with rfl | htail
    · obtain ⟨path, hpath, hcols⟩ := ih howners.2 hmem hreached
      have hreleased : matching.columnOf row = some j := (hm row j).mpr howners.1.symm
      refine ⟨_, .step (parentRow_of_get hparent) hreleased hpath, ?_⟩
      simpa using fun i k hpair => Or.inr (List.mem_cons.mp (hcols (i, k) hpair))
    · obtain ⟨path, hpath, hcols⟩ := ih howners.2 htail hparent
      refine ⟨path, hpath, fun pair hpair => ?_⟩
      exact (List.mem_cons.mp (hcols pair hpair)).elim (fun heq => heq ▸ List.mem_cons_self)
        fun hmem => List.mem_cons_of_mem _ (List.mem_cons_of_mem _ hmem)

structure Rooted (matching : Matching m n) (root : Fin m) (tree : Workspace α m n) : Prop
    extends Spans matching root tree where
  descends : Descends tree.parent tree.rows tree.cols
  reached : ∀ col ∉ tree.cols, ∃ row ∈ tree.rows, tree.parent col = row.val

theorem Rooted.parent_mem {matching : Matching m n} {root : Fin m} {tree : Workspace α m n}
    (h : Rooted matching root tree) (col : Fin n) :
    ∃ row ∈ tree.rows, tree.parent col = row.val := by
  by_cases hcol : col ∈ tree.cols
  · exact h.descends.parent_mem hcol
  · exact h.reached col hcol

variable [Scalar α] {costs : Grid α m n} {matching : Matching m n} {root : Fin m}

theorem spans_start (matching : Matching m n) (workspace : Workspace α m n)
    (potentials : Potentials α m n) (root : Fin m) :
    Spans matching root (start workspace potentials root).toWorkspace :=
  ⟨rfl, List.nodup_nil⟩

theorem Spans.advance {search next : Search α m n} (h : Spans matching root search.toWorkspace)
    (hnext : search.advance costs row = some (col, next))
    (howner : matching.rowOf col = some owner) :
    Spans matching root (next.enter owner).toWorkspace := by
  obtain ⟨hcol, hcols, hrows⟩ := cols_of_advance hnext
  constructor
  · rw [rows_enter, cols_enter, hcols, hrows, List.map_cons, List.map_cons, h.owners, howner]
    rfl
  · rw [cols_enter, hcols]
    exact List.nodup_cons.mpr ⟨hcol, h.nodup_cols⟩

theorem exists_advance (costs : Grid α m n) {search : Search α m n} (h : search.outside ≠ [])
    (row : Fin m) :
    ∃ col next, search.advance costs row = some (col, next) := by
  cases hnearest : (search.relax costs row).nearest? with
  | none => exact absurd (nearest?_eq_none_iff.mp hnearest) h
  | some col => exact ⟨col, _, advance_eq_some.mpr ⟨hnearest, rfl⟩⟩

theorem Spans.grow_ok {search : Search α m n} (h : Spans matching root search.toWorkspace)
    (hm : matching.Consistent) (hroot : matching.columnOf root = none) (hmn : m ≤ n)
    (hrounds : rounds + search.cols.length = n) (row : Fin m) :
    ∃ col last, grow costs matching rounds row search = .ok (col, last) := by
  -- The columns outside the tree are a budget that every round draws on.
  induction rounds generalizing search row with
  | zero =>
    have hlt := h.length_cols_lt hm hroot
    omega
  | succ rounds ih =>
    obtain ⟨col, next, hnext⟩ := exists_advance costs (h.outside_ne_nil hm hroot hmn) row
    cases howner : matching.rowOf col with
    | none => exact ⟨col, next, by simp only [grow, hnext, howner]⟩
    | some owner =>
      obtain ⟨-, hcols, -⟩ := cols_of_advance hnext
      have hbudget : rounds + (next.enter owner).cols.length = n := by
        rw [cols_enter, hcols, List.length_cons]
        omega
      obtain ⟨j, last, hlast⟩ := ih (h.advance hnext howner) hbudget owner
      exact ⟨j, last, by simpa only [grow, hnext, howner] using hlast⟩

theorem run_ok (hm : matching.Consistent) (hroot : matching.columnOf root = none) (hmn : m ≤ n)
    (workspace : Workspace α m n) (potentials : Potentials α m n) :
    ∃ col last, run costs matching workspace potentials root = .ok (col, last) :=
  (spans_start matching workspace potentials root).grow_ok hm hroot hmn rfl root

/-- When all slacks of the root are below the sentinel, the first comparison leaves no parent as
an earlier search had it. -/
theorem rooted_start (matching : Matching m n) (workspace : Workspace α m n)
    {potentials : Potentials α m n}
    (hslack : ∀ j, potentials.slack costs root j < Scalar.infinity) :
    Rooted matching root ((start workspace potentials root).relax costs root).toWorkspace := by
  exact
    { spans_start matching workspace potentials root with
      descends := .root
      reached := fun col _ =>
        ⟨root, List.mem_cons_self, parent_relax_start (hslack col) workspace⟩ }

theorem Rooted.advance {search next : Search α m n}
    (h : Rooted matching root (search.relax costs row).toWorkspace)
    (hnext : search.advance costs row = some (col, next))
    (howner : matching.rowOf col = some owner) :
    Rooted matching root ((next.enter owner).relax costs owner).toWorkspace := by
  have hspans : Spans matching root search.toWorkspace := ⟨h.owners, h.nodup_cols⟩
  obtain ⟨hcol, hcols, hrows⟩ := cols_of_advance hnext
  have hparent := parent_of_advance hnext
  obtain ⟨older, holder, hreached⟩ := h.reached col hcol
  refine { hspans.advance hnext howner with descends := ?_, reached := ?_ }
  -- Columns of the tree keep their parents, because a comparison leaves them out.
  · simp only [rows_relax, cols_relax, rows_enter, cols_enter, hcols, hrows]
    refine (Descends.visit holder hreached h.descends).congr fun j hj => ?_
    rw [cols_relax, ← hcols] at hj
    have hmem : j ∈ (next.enter owner).cols := hj
    rw [parent_relax_of_mem hmem, parent_enter, hparent]
  · intro j hj
    rw [cols_relax, cols_enter, hcols, List.mem_cons, not_or] at hj
    rw [parent_relax]
    split
    · exact ⟨owner, List.mem_cons_self, rfl⟩
    · obtain ⟨i, hi, hij⟩ := h.reached j hj.2
      refine ⟨i, ?_, (hparent j).trans hij⟩
      rw [rows_relax, rows_enter, hrows]
      exact List.mem_cons_of_mem _ hi

/-- A search whose root has all its slacks below the sentinel ends at a free column, and the
parents that it leaves lead from this column back to the root. -/
theorem exists_path_of_run {workspace : Workspace α m n} {potentials : Potentials α m n}
    {last : Search α m n} (hm : matching.Consistent) (hroot : matching.columnOf root = none)
    (hslack : ∀ j, potentials.slack costs root j < Scalar.infinity)
    (hrun : run costs matching workspace potentials root = .ok (col, last)) :
    matching.rowOf col = none ∧ ∃ path, matching.Path last.parents.toArray root col path ∧
      ∀ pair ∈ path, pair.2 ∈ last.cols := by
  have hstart := rooted_start matching workspace hslack
  obtain ⟨row, search, hrooted, hlast, hfree⟩ :=
    grow_last (fun row search => Rooted matching root (search.relax costs row).toWorkspace)
      (fun _ _ _ _ _ h hnext howner => h.advance hnext howner) hstart hrun
  have hcols : last.cols = col :: search.cols := (cols_of_advance hlast).2.1
  have hparent := parent_of_advance hlast
  obtain ⟨older, holder, hreached⟩ := hrooted.parent_mem col
  have hdescends : Descends last.parents.get search.rows search.cols :=
    hrooted.descends.congr fun j _ => hparent j
  rw [hcols]
  exact ⟨hfree, hdescends.exists_path hrooted.owners hm hroot holder
    ((hparent col).trans hreached)⟩

end LinearAssignment.Search
