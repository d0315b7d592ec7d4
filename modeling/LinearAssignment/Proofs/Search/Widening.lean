import LinearAssignment.Proofs.Matching.Widening
import LinearAssignment.Proofs.Search.Slack

/-! A search in a wider table. The far columns are compared as well, but the column that the search
is going to end at stays at least as near as each of them: a row that is new in the tree brings it
nearer by at least as much, and a step moves all of them alike. So no far column is ever selected,
and among equals the lowest is a near one. -/
namespace LinearAssignment.Search

structure Widened [Scalar α] (search : Search α m n) (other : Search α m (n + k)) : Prop where
  slack_eq : ∀ j, other.slack (j.castAdd k) = search.slack j
  parent_eq : ∀ j, other.parent (j.castAdd k) = search.parent j
  rows_eq : other.rows = search.rows
  cols_eq : other.cols = search.cols.map (Fin.castAdd k)
  potentials_eq : other.potentials = search.potentials.widen k
  root_eq : other.root = search.root
  tally_eq : other.tally = search.tally
  trace_eq : other.trace = search.trace

/-- The goal is outside the tree and has not moved, and no far column is nearer. -/
structure Ahead [Scalar α] (goal : Fin n) (search : Search α m n) (other : Search α m (n + k)) :
    Prop where
  not_mem : goal ∉ search.cols
  unmoved : search.potentials.col goal = 0
  slack_le : ∀ far, search.slack goal ≤ other.slack (Fin.natAdd n far)

theorem foldl_nearer_of_le [Scalar α] {search : Search α m n} {best : Fin n}
    {rest : List (Fin n)} (h : ∀ j ∈ rest, search.slack best ≤ search.slack j) :
    rest.foldl search.nearer best = best := by
  induction rest with
  | nil => rfl
  | cons j rest ih =>
    have hbest : search.nearer best j = best := if_pos (h j List.mem_cons_self)
    rw [List.foldl_cons, hbest]
    exact ih fun later hlater => h later (List.mem_cons_of_mem _ hlater)

namespace Widened

variable [Scalar α] {search : Search α m n} {other : Search α m (n + k)}

theorem contains_eq (h : Widened search other) (j : Fin n) :
    other.cols.contains (j.castAdd k) = search.cols.contains j := by
  rw [h.cols_eq, contains_near]

theorem contains_far_eq (h : Widened search other) (far : Fin k) :
    other.cols.contains (Fin.natAdd n far) = false := by
  rw [h.cols_eq, contains_far]

theorem outside_eq (h : Widened search other) :
    other.outside =
      search.outside.map (Fin.castAdd k) ++ (List.finRange k).map (Fin.natAdd n) := by
  rw [Search.outside_eq, finRange_add, List.filter_append, List.filter_map]
  congr 1
  · rw [Search.outside_eq]
    congr 1
    apply List.filter_congr
    intro j _
    rw [Function.comp_apply, h.contains_eq]
  · rw [List.filter_eq_self]
    intro j hj
    obtain ⟨far, -, rfl⟩ := List.mem_map.mp hj
    rw [h.contains_far_eq]
    rfl

theorem visit (h : Widened search other) (col : Fin n) :
    Widened (search.visit col) (other.visit (col.castAdd k)) where
  slack_eq := h.slack_eq
  parent_eq := h.parent_eq
  rows_eq := h.rows_eq
  cols_eq := congrArg (col.castAdd k :: ·) h.cols_eq
  potentials_eq := h.potentials_eq
  root_eq := h.root_eq
  tally_eq := by rw [Search.visit, Search.visit, h.tally_eq]
  trace_eq := h.trace_eq

theorem enter (h : Widened search other) (row : Fin m) :
    Widened (search.enter row) (other.enter row) where
  slack_eq := h.slack_eq
  parent_eq := h.parent_eq
  rows_eq := congrArg (row :: ·) h.rows_eq
  cols_eq := h.cols_eq
  potentials_eq := h.potentials_eq
  root_eq := h.root_eq
  tally_eq := h.tally_eq
  trace_eq := h.trace_eq

theorem lower (h : Widened search other) (step : α) :
    Widened (search.lower step) (other.lower step) := by
  by_cases hstep : 0 < step
  · constructor
    case slack_eq =>
      intro j
      rw [slack_lower_of_pos _ hstep, slack_lower_of_pos _ hstep, h.contains_eq, h.slack_eq]
    case parent_eq =>
      intro j
      rw [parent_lower, parent_lower, h.parent_eq]
    case rows_eq => rw [rows_lower, rows_lower, h.rows_eq]
    case cols_eq => rw [cols_lower, cols_lower, h.cols_eq]
    case potentials_eq =>
      rw [potentials_lower_of_pos _ hstep, potentials_lower_of_pos _ hstep, h.potentials_eq,
        h.rows_eq, h.cols_eq, Potentials.shift_widen]
    case root_eq => simpa [Search.lower, hstep] using h.root_eq
    case tally_eq => simp [Search.lower, hstep, h.tally_eq]
    case trace_eq => simp [Search.lower, hstep, h.root_eq, h.trace_eq]
  · rwa [lower_of_not_pos _ hstep, lower_of_not_pos _ hstep]

end Widened

namespace Ahead

variable [Scalar α] {goal : Fin n} {search : Search α m n} {other : Search α m (n + k)}

theorem visit (h : Ahead goal search other) (hne : goal ≠ col) (col' : Fin (n + k)) :
    Ahead goal (search.visit col) (other.visit col') where
  not_mem hmem := (List.mem_cons.mp hmem).elim hne h.not_mem
  unmoved := h.unmoved
  slack_le := h.slack_le

theorem enter (h : Ahead goal search other) (row : Fin m) :
    Ahead goal (search.enter row) (other.enter row) where
  not_mem := h.not_mem
  unmoved := h.unmoved
  slack_le := h.slack_le

end Ahead

variable [Field K] [LinearOrder K] {cost : Fin m → Fin n → K} {wide : Fin m → Fin (n + k) → K}
  {search : Search (Exact K) m n} {other : Search (Exact K) m (n + k)} {goal : Fin n}

theorem Widened.closer_eq (h : Widened search other) (hwide : Widens cost wide) (row : Fin m)
    (j : Fin n) :
    other.closer (Grid.exact wide) row (j.castAdd k) =
      search.closer (Grid.exact cost) row j := by
  rw [closer, closer, isVisited_eq, isVisited_eq, h.contains_eq, h.slack_eq, h.potentials_eq,
    Potentials.slack_widen_near hwide]

theorem Widened.relax (h : Widened search other) (hwide : Widens cost wide) (row : Fin m) :
    Widened (search.relax (Grid.exact cost) row) (other.relax (Grid.exact wide) row) where
  slack_eq j := by
    rw [slack_relax, h.closer_eq hwide, h.slack_eq, h.potentials_eq,
      Potentials.slack_widen_near hwide, slack_relax]
  parent_eq j := by
    rw [parent_relax, h.closer_eq hwide, h.parent_eq, parent_relax]
  rows_eq := h.rows_eq
  cols_eq := h.cols_eq
  potentials_eq := h.potentials_eq
  root_eq := h.root_eq
  tally_eq := h.tally_eq
  trace_eq := h.trace_eq

theorem Widened.nearest?_eq (h : Widened search other) (hahead : Ahead goal search other)
    (hcol : search.nearest? = some col) : other.nearest? = some (col.castAdd k) := by
  have hfar : ∀ j ∈ (List.finRange k).map (Fin.natAdd n),
      other.slack (col.castAdd k) ≤ other.slack j := by
    intro j hj
    obtain ⟨far, -, rfl⟩ := List.mem_map.mp hj
    rw [h.slack_eq]
    exact Exact.le_trans (slack_nearest_le hcol hahead.not_mem) (hahead.slack_le far)
  have hnearer (best j : Fin n) :
      other.nearer (best.castAdd k) (j.castAdd k) = (search.nearer best j).castAdd k := by
    rw [nearer, nearer, h.slack_eq, h.slack_eq]
    split <;> rfl
  unfold nearest? at hcol ⊢
  rw [h.outside_eq]
  cases houtside : search.outside with
  | nil =>
    rw [houtside] at hcol
    cases hcol
  | cons first rest =>
    rw [houtside] at hcol
    obtain rfl := Option.some.inj hcol
    have hnear : (rest.map (Fin.castAdd k)).foldl other.nearer (first.castAdd k) =
        (rest.foldl search.nearer first).castAdd k := by
      rw [List.foldl_map]
      exact List.foldl_hom (Fin.castAdd k) hnearer
    rw [List.map_cons, List.cons_append]
    dsimp only
    rw [List.foldl_append, hnear, foldl_nearer_of_le hfar]

variable [IsStrictOrderedRing K]

theorem Ahead.relax (h : Ahead goal search other) (hwidened : Widened search other)
    (hwide : Widens cost wide) (row : Fin m) :
    Ahead goal (search.relax (Grid.exact cost) row) (other.relax (Grid.exact wide) row) where
  not_mem := h.not_mem
  unmoved := h.unmoved
  slack_le far := by
    rw [slack_relax other]
    split
    · rw [hwidened.potentials_eq]
      exact Exact.le_trans (slack_relax_le h.not_mem _ row)
        (Potentials.slack_le_slack_far hwide h.unmoved row far)
    · exact Exact.le_trans (slack_relax_le_slack _ _ row goal) (h.slack_le far)

theorem Ahead.lower (h : Ahead goal search other) (hwidened : Widened search other)
    (step : Exact K) : Ahead goal (search.lower step) (other.lower step) := by
  by_cases hstep : 0 < step
  · have hgoal : search.cols.contains goal = false := by simpa using h.not_mem
    constructor
    case not_mem =>
      rw [cols_lower]
      exact h.not_mem
    case unmoved =>
      rw [potentials_lower_of_pos _ hstep, Potentials.col_shift, hgoal]
      exact h.unmoved
    case slack_le =>
      intro far
      rw [slack_lower_of_pos _ hstep, hgoal, slack_lower_of_pos _ hstep,
        hwidened.contains_far_eq]
      exact Exact.sub_le_sub_right (h.slack_le far) step
  · rwa [lower_of_not_pos _ hstep, lower_of_not_pos _ hstep]

theorem Widened.advance (h : Widened search other) (hahead : Ahead goal search other)
    (hwide : Widens cost wide) {row : Fin m} {col : Fin n} {next : Search (Exact K) m n}
    (hnext : search.advance (Grid.exact cost) row = some (col, next)) :
    ∃ next', other.advance (Grid.exact wide) row = some (col.castAdd k, next') ∧
      Widened next next' ∧ (goal ≠ col → Ahead goal next next') := by
  obtain ⟨hcol, rfl⟩ := advance_eq_some.mp hnext
  have hrelax := h.relax hwide row
  have hahead' := hahead.relax h hwide row
  refine ⟨_, advance_eq_some.mpr ⟨hrelax.nearest?_eq hahead' hcol, rfl⟩, ?_, ?_⟩
  · rw [hrelax.slack_eq]
    exact (hrelax.lower _).visit col
  · intro hne
    rw [hrelax.slack_eq]
    exact (hahead'.lower hrelax _).visit hne (col.castAdd k)

/-- The column that a search ends at is ahead of the far columns until it is taken. -/
theorem grow_widened {matching : Matching m n} {last : Search (Exact K) m n}
    (hwide : Widens cost wide)
    (hgrow : grow (Grid.exact cost) matching rounds row search = .ok (goal, last))
    (h : Widened search other) (hahead : Ahead goal search other) :
    ∃ last', grow (Grid.exact wide) (matching.widen k) (rounds + k) row other =
      .ok (goal.castAdd k, last') ∧ Widened last last' := by
  obtain ⟨-, -, -, -, hfree⟩ := exists_last_round hgrow
  -- The induction follows the rounds of the narrow search; the wide one has some left over.
  refine grow_induction (motive := fun rounds row search => ∀ other : Search (Exact K) m (n + k),
    Widened search other → Ahead goal search other →
      ∃ last', grow (Grid.exact wide) (matching.widen k) (rounds + k) row other =
        .ok (goal.castAdd k, last') ∧ Widened last last') ?_ ?_ hgrow other h hahead
  · intro rounds row search hnext hfree other h hahead
    obtain ⟨last', hnext', hlast, -⟩ := h.advance hahead hwide hnext
    refine ⟨last', ?_, hlast⟩
    rw [Nat.add_right_comm, grow, hnext']
    simp only [Matching.rowOf_widen_near, hfree]
  · intro rounds row search j next owner hnext howner ih other h hahead
    obtain ⟨next', hnext', hwidened, hahead'⟩ := h.advance hahead hwide hnext
    have hne : goal ≠ j := by
      rintro rfl
      cases hfree.symm.trans howner
    obtain ⟨last', hlast', hlast⟩ :=
      ih (next'.enter owner) (hwidened.enter owner) ((hahead' hne).enter owner)
    refine ⟨last', ?_, hlast⟩
    rw [Nat.add_right_comm, grow, hnext']
    simpa only [Matching.rowOf_widen_near, howner] using hlast'

theorem run_widened {matching : Matching m n} {workspace : Workspace (Exact K) m n}
    {workspace' : Workspace (Exact K) m (n + k)} {potentials : Potentials (Exact K) m n}
    {root : Fin m} {last : Search (Exact K) m n} (hwide : Widens cost wide)
    (hparent : ∀ j, workspace'.parent (j.castAdd k) = workspace.parent j)
    (hfree : ∀ j, matching.rowOf j = none → potentials.col j = 0)
    (hrun : run (Grid.exact cost) matching workspace potentials root = .ok (col, last)) :
    ∃ last', run (Grid.exact wide) (matching.widen k) workspace' (potentials.widen k) root =
      .ok (col.castAdd k, last') ∧ Widened last last' := by
  have hstart : Widened (start workspace potentials root)
      (start workspace' (potentials.widen k) root) :=
    { slack_eq := fun j => by simp [start]
      parent_eq := hparent
      rows_eq := rfl
      cols_eq := rfl
      potentials_eq := rfl
      root_eq := rfl
      tally_eq := rfl
      trace_eq := rfl }
  obtain ⟨-, -, -, -, hgoal⟩ := exists_last_round hrun
  have hahead : Ahead col (start workspace potentials root)
      (start workspace' (potentials.widen k) root) :=
    { not_mem := List.not_mem_nil
      unmoved := hfree col hgoal
      slack_le := fun far => by
        simp only [start, Workspace.slack_restart]
        exact Exact.le_refl _ }
  exact grow_widened hwide hrun hstart hahead

end LinearAssignment.Search
