import LinearAssignment.Proofs.Matching.Embedding
import LinearAssignment.Search

/-! A search in an embedded table. It compares the same slacks in other numbers, so it takes the same
columns in the same order, ties included, and its steps are the gaps of the steps taken before. -/
namespace LinearAssignment

def Event.map (f : α → β) : Event α → Event β
  | .dualStep root step => .dualStep root (f step)
  | .matched root col visitedRows => .matched root col visitedRows

variable [Scalar α] [Scalar β] {costs : Grid α m n} {costs' : Grid β k n}

def Workspace.embed (e : Embedding costs costs') (workspace : Workspace α m n) :
    Workspace β k n where
  slacks := Vector.ofFn fun j => e.gap (workspace.slack j)
  parents := workspace.parents
  visited := workspace.visited
  rows := workspace.rows.map (Fin.castLE e.le)
  cols := workspace.cols

theorem Workspace.fresh_embed (e : Embedding costs costs') :
    (Workspace.fresh m n : Workspace α m n).embed e = Workspace.fresh k n := by
  unfold embed fresh
  congr 1
  apply ext_get
  intro j
  rw [get_ofFn, get_replicate, slack, get_replicate, e.gap_infinity]

namespace Search

def embed (e : Embedding costs costs') (search : Search α m n) : Search β k n where
  toWorkspace := search.toWorkspace.embed e
  potentials := search.potentials.embed e
  root := search.root
  tally := search.tally
  trace := search.trace.map (Event.map e.gap)
  visited_eq := search.visited_eq

variable (e : Embedding costs costs') (search : Search α m n)

@[simp] theorem slack_embed (j : Fin n) : (search.embed e).slack j = e.gap (search.slack j) := by
  simp [embed, Workspace.embed, Workspace.slack]

@[simp] theorem parent_embed (j : Fin n) : (search.embed e).parent j = search.parent j := rfl

@[simp] theorem rows_embed : (search.embed e).rows = search.rows.map (Fin.castLE e.le) := rfl

@[simp] theorem cols_embed : (search.embed e).cols = search.cols := rfl

@[simp] theorem potentials_embed :
    (search.embed e).potentials = search.potentials.embed e := rfl

@[simp] theorem trace_embed :
    (search.embed e).trace = search.trace.map (Event.map e.gap) := rfl

theorem start_embed (workspace : Workspace α m n) (potentials : Potentials α m n)
    (root : Fin m) :
    start (workspace.embed e) (potentials.embed e) (root.castLE e.le) =
      (start workspace potentials root).embed e := by
  apply Search.ext
  case hslack =>
    intro j
    simp [start, e.gap_infinity]
  all_goals intros; rfl

theorem visit_embed (col : Fin n) : (search.embed e).visit col = (search.visit col).embed e := rfl

theorem enter_embed (row : Fin m) :
    (search.embed e).enter (row.castLE e.le) = (search.enter row).embed e := rfl

theorem closer_embed (row : Fin m) (j : Fin n) :
    (search.embed e).closer costs' (row.castLE e.le) j = search.closer costs row j := by
  rw [Bool.eq_iff_iff, closer_eq_true, closer_eq_true, potentials_embed,
    Potentials.slack_embed, slack_embed, e.gap_lt, cols_embed]

theorem relax_embed (row : Fin m) :
    (search.embed e).relax costs' (row.castLE e.le) = (search.relax costs row).embed e := by
  apply Search.ext
  case hslack =>
    intro j
    rw [slack_relax, closer_embed, slack_embed, slack_embed, slack_relax, potentials_embed,
      Potentials.slack_embed]
    split <;> rfl
  case hparent =>
    intro j
    rw [parent_relax, closer_embed, parent_embed, parent_embed, parent_relax]
    rfl
  all_goals rfl

theorem nearest?_embed : (search.embed e).nearest? = search.nearest? := by
  have hnearer : (search.embed e).nearer = search.nearer := by
    funext best j
    simp only [nearer, slack_embed, e.gap_le]
  unfold nearest?
  rw [hnearer]
  rfl

theorem lower_embed (step : α) :
    (search.embed e).lower (e.gap step) = (search.lower step).embed e := by
  by_cases hstep : 0 < step
  · have hstep' : 0 < e.gap step := (e.gap_pos step).mpr hstep
    apply Search.ext
    case hslack =>
      intro j
      rw [slack_lower_of_pos _ hstep', slack_embed, slack_embed, slack_lower_of_pos _ hstep,
        cols_embed]
      split
      · rfl
      · rw [e.gap_sub]
    case hparent =>
      intro j
      rw [parent_lower, parent_embed, parent_embed, parent_lower]
    case hrows => rw [rows_lower, rows_embed, rows_embed, rows_lower]
    case hcols => rw [cols_lower, cols_embed, cols_embed, cols_lower]
    case hpotentials =>
      rw [potentials_lower_of_pos _ hstep', potentials_embed, potentials_embed,
        potentials_lower_of_pos _ hstep, rows_embed, cols_embed, Potentials.shift_embed]
    case hroot => simp [lower, embed, hstep, hstep']
    case htally => simp [lower, embed, hstep, hstep']
    case htrace => simp [lower, embed, hstep, hstep', Event.map]
  · rw [lower_of_not_pos _ hstep, lower_of_not_pos _ ((e.gap_pos step).not.mpr hstep)]

theorem advance_embed (row : Fin m) :
    (search.embed e).advance costs' (row.castLE e.le) =
      (search.advance costs row).map fun found => (found.1, found.2.embed e) := by
  simp only [advance, relax_embed, nearest?_embed, Option.map_map]
  congr 1
  funext col
  rw [slack_embed, lower_embed, visit_embed]
  rfl

theorem grow_embed (matching : Matching m n) (rounds : Nat) (row : Fin m) :
    grow costs' (matching.embed e.le) rounds (row.castLE e.le) (search.embed e) =
      (grow costs matching rounds row search).map fun found => (found.1, found.2.embed e) := by
  induction rounds generalizing row search with
  | zero => rfl
  | succ rounds ih =>
    rw [grow, grow, advance_embed]
    cases hnext : search.advance costs row with
    | none => rfl
    | some found =>
      obtain ⟨col, next⟩ := found
      rw [Option.map_some]
      dsimp only
      rw [Matching.rowOf_embed]
      cases howner : matching.rowOf col with
      | none => rfl
      | some owner =>
      rw [Option.map_some]
      dsimp only
      rw [enter_embed]
      exact ih (next.enter owner) owner

theorem run_embed (matching : Matching m n) (workspace : Workspace α m n)
    (potentials : Potentials α m n) (root : Fin m) :
    run costs' (matching.embed e.le) (workspace.embed e) (potentials.embed e)
        (root.castLE e.le) =
      (run costs matching workspace potentials root).map fun found =>
        (found.1, found.2.embed e) := by
  rw [run, start_embed, grow_embed]
  rfl

end Search
end LinearAssignment
