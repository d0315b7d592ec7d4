import LinearAssignment.Proofs.Arrays
import LinearAssignment.Proofs.Search.Tree

/-! The search as loops over arrays, in which rows and columns are plain numbers and every entry is
read and written through a check. From a free row of a matching whose two sides agree no check
fails, whatever the numbers of the table are: the loops do what the search does that has the bounds
in its types. -/
namespace LinearAssignment

/-- The arrays of a search, and its tree with the newest members first. -/
structure Indexed (α : Type) where
  slacks : Array α
  parents : Array Nat
  visited : Array Bool
  rows : List Nat
  cols : List Nat
  rowPotentials : Array α
  colPotentials : Array α

namespace Indexed

def ofSearch (search : Search α m n) : Indexed α where
  slacks := Array.ofFn search.slack
  parents := Array.ofFn search.parent
  visited := Array.ofFn search.isVisited
  rows := search.rows.map Fin.val
  cols := search.cols.map Fin.val
  rowPotentials := Array.ofFn search.potentials.row
  colPotentials := Array.ofFn search.potentials.col

def visit (col : Nat) (search : Indexed α) : Except Fault (Indexed α) := do
  let visited ← write search.visited col true
  return { search with visited, cols := col :: search.cols }

theorem visit_ofSearch (search : Search α m n) (col : Fin n) :
    (ofSearch search).visit col.val = .ok (ofSearch (search.visit col)) := by
  have hvisited : Function.update search.isVisited col true = (search.visit col).isVisited := by
    funext j
    simp [Function.update_apply, Search.isVisited_eq]
  simp only [visit, ofSearch, write_ofFn, hvisited, bind, Except.bind, pure, Except.pure]
  rfl

variable [Scalar α]

def relaxAt (costs : Grid α m n) (row : Nat) (search : Indexed α) (col : Nat) :
    Except Fault (Indexed α) := do
  if ← lookup search.visited col then return search
  let cost ← costs.read row col
  let slack := cost - (← lookup search.rowPotentials row) - (← lookup search.colPotentials col)
  if slack < (← lookup search.slacks col) then
    let slacks ← write search.slacks col slack
    let parents ← write search.parents col row
    return { search with slacks, parents }
  return search

def nearerAt (search : Indexed α) (best : Option (Nat × α)) (col : Nat) :
    Except Fault (Option (Nat × α)) := do
  if ← lookup search.visited col then return best
  let slack ← lookup search.slacks col
  match best with
  | none => return some (col, slack)
  | some (_, least) => if least ≤ slack then return best else return some (col, slack)

def lowerAt (visited : Array Bool) (step : α) (slacks : Array α) (col : Nat) :
    Except Fault (Array α) := do
  if ← lookup visited col then return slacks
  modify slacks col (· - step)

/-- Raises the rows of the tree one by one, then takes the step off its columns and off the slacks
of all others. -/
def lower (n : Nat) (step : α) (search : Indexed α) : Except Fault (Indexed α) := do
  if 0 < step then
    let rowPotentials ← search.rows.reverse.foldlM (fun values row => modify values row (· + step))
      search.rowPotentials
    let colPotentials ← search.cols.reverse.foldlM (fun values col => modify values col (· - step))
      search.colPotentials
    let slacks ← (List.range n).foldlM (lowerAt search.visited step) search.slacks
    return { search with slacks, rowPotentials, colPotentials }
  return search

def advance (costs : Grid α m n) (row : Nat) (search : Indexed α) :
    Except Fault (Nat × Indexed α) := do
  let relaxed ← (List.range n).foldlM (relaxAt costs row) search
  match ← (List.range n).foldlM (nearerAt relaxed) none with
  | none => throw .noColumnLeft
  | some (col, step) => return (col, ← visit col (← relaxed.lower n step))

def grow (costs : Grid α m n) (owners : Array (Option Nat)) :
    Nat → Nat → Indexed α → Except Fault (Nat × Indexed α)
  | 0, _, _ => throw .noColumnLeft
  | rounds + 1, row, search => do
    let (col, next) ← search.advance costs row
    match ← lookup owners col with
    | none => return (col, next)
    | some owner => grow costs owners rounds owner { next with rows := owner :: next.rows }

def start (workspace : Workspace α m n) (potentials : Potentials α m n) (root : Nat) :
    Indexed α where
  slacks := Array.replicate n Scalar.infinity
  parents := workspace.parents.toArray
  visited := Array.replicate n false
  rows := [root]
  cols := []
  rowPotentials := potentials.rows.toArray
  colPotentials := potentials.cols.toArray

def owners (matching : Matching m n) : Array (Option Nat) :=
  matching.byColumn.toArray.map (Option.map Fin.val)

def run (costs : Grid α m n) (matching : Matching m n) (workspace : Workspace α m n)
    (potentials : Potentials α m n) (root : Nat) : Except Fault (Nat × Indexed α) :=
  (start workspace potentials root).grow costs (owners matching) n root

theorem start_eq (workspace : Workspace α m n) (potentials : Potentials α m n) (root : Fin m) :
    start workspace potentials root.val = ofSearch (Search.start workspace potentials root) := by
  unfold start ofSearch
  congr 1
  case e_slacks => exact toArray_eq_ofFn (Search.start workspace potentials root).slacks
  case e_parents => exact toArray_eq_ofFn workspace.parents
  case e_visited => exact toArray_eq_ofFn (Search.start workspace potentials root).visited
  case e_rowPotentials => exact toArray_eq_ofFn potentials.rows
  case e_colPotentials => exact toArray_eq_ofFn potentials.cols

@[simp] theorem lookup_owners (matching : Matching m n) (j : Fin n) :
    lookup (owners matching) j.val = .ok ((matching.rowOf j).map Fin.val) := by
  have howners : owners matching = Array.ofFn fun j => (matching.rowOf j).map Fin.val := by
    rw [owners, toArray_eq_ofFn, Array.map_ofFn]
    rfl
  rw [howners, lookup_ofFn]

def remember (search : Indexed α) (known : Fin n → α × Nat) : Indexed α :=
  { search with
    slacks := Array.ofFn (Prod.fst ∘ known)
    parents := Array.ofFn (Prod.snd ∘ known) }

def met (search : Search α m n) (costs : Grid α m n) (row : Fin m) (j : Fin n)
    (known : α × Nat) : α × Nat :=
  if search.isVisited j then known
  else if search.potentials.slack costs row j < known.1 then
    (search.potentials.slack costs row j, row.val)
  else known

variable {costs : Grid α m n} (search : Search α m n)

theorem relaxAt_remember (costs : Grid α m n) (row : Fin m) (known : Fin n → α × Nat) (j : Fin n) :
    relaxAt costs row.val ((ofSearch search).remember known) j.val =
      .ok ((ofSearch search).remember
        (Function.update known j (met search costs row j (known j)))) := by
  have hcost : costs.read row.val j.val = .ok (costs.entry row j) := costs.read_val row j
  have hslacks : Function.update (Prod.fst ∘ known) j (known j).1 = Prod.fst ∘ known :=
    Function.update_eq_self j (Prod.fst ∘ known)
  have hparents : Function.update (Prod.snd ∘ known) j (known j).2 = Prod.snd ∘ known :=
    Function.update_eq_self j (Prod.snd ∘ known)
  simp only [relaxAt, remember, ofSearch, lookup_ofFn, write_ofFn, hcost, bind, Except.bind,
    Function.comp_update, Function.comp_apply]
  by_cases hvisited : search.isVisited j = true
  · rw [if_pos hvisited, met, if_pos hvisited, hslacks, hparents]
    rfl
  · by_cases hless : search.potentials.slack costs row j < (known j).1
    · rw [if_neg hvisited, met, if_neg hvisited, if_pos hless]
      exact if_pos hless
    · rw [if_neg hvisited, met, if_neg hvisited, if_neg hless, hslacks, hparents]
      exact if_neg hless

theorem met_eq (row : Fin m) (j : Fin n) :
    met search costs row j (search.slack j, search.parent j) =
      ((search.relax costs row).slack j, (search.relax costs row).parent j) := by
  rw [Search.slack_relax, Search.parent_relax, met, Search.closer]
  by_cases hvisited : search.isVisited j = true
  · simp [hvisited]
  · by_cases hless : search.potentials.slack costs row j < search.slack j <;>
      simp [hvisited, hless]

theorem foldlM_relaxAt (row : Fin m) :
    (List.range n).foldlM (relaxAt costs row.val) (ofSearch search) =
      .ok (ofSearch (search.relax costs row)) := by
  have hloop := foldlM_range_eq_ok (relaxAt_remember search costs row)
    fun j => (search.slack j, search.parent j)
  simp only [met_eq] at hloop
  exact hloop

def ahead (search : Search α m n) (best : Option (Fin n)) (j : Fin n) : Option (Fin n) :=
  some (best.elim j fun col => search.nearer col j)

theorem foldl_ahead : search.outside.foldl (ahead search) none = search.nearest? := by
  unfold Search.nearest?
  cases search.outside with
  | nil => rfl
  | cons first rest => exact List.foldl_hom some fun _ _ => rfl

theorem nearerAt_ofSearch (best : Option (Fin n)) (j : Fin n) :
    nearerAt (ofSearch search) (best.map fun col => (col.val, search.slack col)) j.val =
      .ok ((if search.isVisited j then best else ahead search best j).map
        fun col => (col.val, search.slack col)) := by
  simp only [nearerAt, ofSearch, lookup_ofFn, bind, Except.bind]
  by_cases hvisited : search.isVisited j = true
  · rw [if_pos hvisited, if_pos hvisited]
    rfl
  · rw [if_neg hvisited, if_neg hvisited]
    cases best with
    | none => rfl
    | some col =>
      simp only [Option.map_some, ahead, Option.elim_some, Search.nearer]
      split <;> rfl

theorem foldlM_nearerAt :
    (List.range n).foldlM (nearerAt (ofSearch search)) none =
      .ok (search.nearest?.map fun col => (col.val, search.slack col)) := by
  have hloop (best : Option (Fin n)) (cols : List (Fin n)) :
      (cols.map Fin.val).foldlM (nearerAt (ofSearch search))
          (best.map fun col => (col.val, search.slack col)) =
        .ok (((cols.filter fun j => !search.isVisited j).foldl (ahead search) best).map
          fun col => (col.val, search.slack col)) := by
    induction cols generalizing best with
    | nil => rfl
    | cons j rest ih =>
      rw [List.map_cons, List.foldlM_cons, nearerAt_ofSearch]
      refine (ih _).trans ?_
      by_cases hvisited : search.isVisited j = true <;> simp [hvisited]
  rw [← foldl_ahead, ← List.map_coe_finRange_eq_range]
  exact hloop none (List.finRange n)

theorem foldlM_lowerAt (step : α) :
    (List.range n).foldlM (lowerAt (Array.ofFn search.isVisited) step)
        (Array.ofFn search.slack) =
      .ok (Array.ofFn fun j =>
        if search.isVisited j then search.slack j else search.slack j - step) := by
  have hstep (slacks : Fin n → α) (j : Fin n) :
      lowerAt (Array.ofFn search.isVisited) step (Array.ofFn slacks) j.val =
        .ok (Array.ofFn (Function.update slacks j
          (if search.isVisited j then slacks j else slacks j - step))) := by
    simp only [lowerAt, lookup_ofFn, modify_ofFn, bind, Except.bind]
    by_cases hvisited : search.isVisited j = true
    · rw [if_pos hvisited, if_pos hvisited, Function.update_eq_self]
      rfl
    · rw [if_neg hvisited, if_neg hvisited]
  exact foldlM_range_eq_ok (f := fun j slack => if search.isVisited j then slack else slack - step)
    hstep search.slack

/-- Rows and columns that are in the tree once are moved once. -/
theorem lower_ofSearch (hrows : search.rows.Nodup) (hcols : search.cols.Nodup) (step : α) :
    (ofSearch search).lower n step = .ok (ofSearch (search.lower step)) := by
  by_cases hpos : 0 < step
  · have hraised := foldlM_modify search.potentials.row (· + step) (List.nodup_reverse.mpr hrows)
    have hlowered := foldlM_modify search.potentials.col (· - step) (List.nodup_reverse.mpr hcols)
    rw [List.map_reverse] at hraised hlowered
    simp only [lower, ofSearch, if_pos hpos, hraised, hlowered, foldlM_lowerAt, bind, Except.bind,
      pure, Except.pure, List.contains_reverse]
    have hslack : (search.lower step).slack =
        fun j => if search.isVisited j then search.slack j else search.slack j - step := by
      funext j
      rw [Search.slack_lower_of_pos search hpos, Search.isVisited_eq]
    have hparent : (search.lower step).parent = search.parent :=
      funext (Search.parent_lower search step)
    have hvisited : (search.lower step).isVisited = search.isVisited := by
      funext j
      rw [Search.isVisited_eq, Search.isVisited_eq, Search.cols_lower]
    have hrow := funext (search.potentials.row_shift search.rows search.cols step)
    have hcol := funext (search.potentials.col_shift search.rows search.cols step)
    rw [hslack, hparent, hvisited, Search.potentials_lower_of_pos search hpos, hrow, hcol,
      Search.rows_lower, Search.cols_lower]
  · rw [Search.lower_of_not_pos search hpos]
    simp only [lower, if_neg hpos]
    rfl

theorem advance_ofSearch (hrows : search.rows.Nodup) (hcols : search.cols.Nodup) (row : Fin m) :
    (ofSearch search).advance costs row.val =
      match search.advance costs row with
      | none => .error .noColumnLeft
      | some (col, next) => .ok (col.val, ofSearch next) := by
  simp only [advance, foldlM_relaxAt, foldlM_nearerAt, Search.advance, bind, Except.bind]
  cases (search.relax costs row).nearest? with
  | none => rfl
  | some col =>
    simp only [Option.map_some, lower_ofSearch (search.relax costs row) hrows hcols,
      visit_ofSearch]
    rfl

variable {matching : Matching m n} {root : Fin m}

theorem grow_ofSearch {search : Search α m n} (h : Search.Spans matching root search.toWorkspace)
    (hm : matching.Consistent) (hroot : matching.columnOf root = none) (rounds : Nat)
    (row : Fin m) :
    (ofSearch search).grow costs (owners matching) rounds row.val =
      (Search.grow costs matching rounds row search).map
        fun found => (found.1.val, ofSearch found.2) := by
  induction rounds generalizing search row with
  | zero => rfl
  | succ rounds ih =>
    rw [grow, Search.grow, advance_ofSearch search (h.nodup_rows hm hroot) h.nodup_cols]
    cases hnext : search.advance costs row with
    | none => rfl
    | some found =>
      obtain ⟨col, next⟩ := found
      simp only [lookup_owners, bind, Except.bind]
      cases howner : matching.rowOf col with
      | none => rfl
      | some owner => exact ih (h.advance hnext howner) owner

/-- The loops find and leave what the search does, each entry at its number. -/
theorem run_eq (costs : Grid α m n) (hm : matching.Consistent)
    (hroot : matching.columnOf root = none) (workspace : Workspace α m n)
    (potentials : Potentials α m n) :
    run costs matching workspace potentials root.val =
      (Search.run costs matching workspace potentials root).map
        fun found => (found.1.val, ofSearch found.2) := by
  rw [run, start_eq]
  exact grow_ofSearch (Search.spans_start matching workspace potentials root) hm hroot n root

end Indexed
end LinearAssignment
