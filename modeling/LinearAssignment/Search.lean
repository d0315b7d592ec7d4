import LinearAssignment.Journal
import LinearAssignment.Matching.Basic
import LinearAssignment.Potentials

/-! The search for a free column by slack. From a free row a tree of rows and columns grows; every
column outside the tree remembers its least slack to a row of the tree and the row that has it.
The nearest column enters next, after the potentials have moved far enough to use up its slack,
and its owner enters with it. The search ends at a column without an owner. Counters and the log are
written where it happens: each step by the step, each column as it enters. -/
namespace LinearAssignment

/-- What a search writes down about the columns, and the tree with its newest members first. -/
structure Workspace (α : Type) (m n : Nat) where
  slacks : Vector α n
  parents : Vector Nat n
  visited : Vector Bool n
  rows : List (Fin m)
  cols : List (Fin n)

namespace Workspace

def slack (workspace : Workspace α m n) (j : Fin n) : α := workspace.slacks.get j

def parent (workspace : Workspace α m n) (j : Fin n) : Nat := workspace.parents.get j

def isVisited (workspace : Workspace α m n) (j : Fin n) : Bool := workspace.visited.get j

def outside (workspace : Workspace α m n) : List (Fin n) :=
  (List.finRange n).filter fun j => !workspace.isVisited j

def fresh [Scalar α] (m n : Nat) : Workspace α m n where
  slacks := Vector.replicate n Scalar.infinity
  parents := Vector.replicate n 0
  visited := Vector.replicate n false
  rows := []
  cols := []

@[simp] theorem slack_fresh [Scalar α] (j : Fin n) :
    (fresh m n : Workspace α m n).slack j = Scalar.infinity := by
  simp [fresh, slack]

/-- The tree is the root alone, and nothing is known yet. Parents stay from the last search: the
first slack below the sentinel that a column meets overwrites its parent. -/
def restart [Scalar α] (workspace : Workspace α m n) (root : Fin m) : Workspace α m n where
  slacks := Vector.replicate n Scalar.infinity
  parents := workspace.parents
  visited := Vector.replicate n false
  rows := [root]
  cols := []

@[simp] theorem slack_restart [Scalar α] (workspace : Workspace α m n) (root : Fin m)
    (j : Fin n) : (workspace.restart root).slack j = Scalar.infinity := by
  simp [restart, slack]

@[simp] theorem rows_restart [Scalar α] (workspace : Workspace α m n) (root : Fin m) :
    (workspace.restart root).rows = [root] := rfl

@[simp] theorem cols_restart [Scalar α] (workspace : Workspace α m n) (root : Fin m) :
    (workspace.restart root).cols = [] := rfl

@[simp] theorem parent_restart [Scalar α] (workspace : Workspace α m n) (root : Fin m)
    (j : Fin n) : (workspace.restart root).parent j = workspace.parent j := rfl

end Workspace

/-- A workspace in use. The potentials move while the search goes on, and the flags always tell the
columns of the tree. -/
structure Search (α : Type) (m n : Nat) extends Workspace α m n where
  potentials : Potentials α m n
  root : Nat
  tally : Tally
  /-- What has been logged, newest first. -/
  trace : List (Event α)
  visited_eq : ∀ j, visited.get j = cols.contains j

namespace Search

@[ext] theorem ext {left right : Search α m n} (hslack : ∀ j, left.slack j = right.slack j)
    (hparent : ∀ j, left.parent j = right.parent j) (hrows : left.rows = right.rows)
    (hcols : left.cols = right.cols) (hpotentials : left.potentials = right.potentials)
    (hroot : left.root = right.root) (htally : left.tally = right.tally)
    (htrace : left.trace = right.trace) : left = right := by
  obtain ⟨⟨slacks, parents, visited, _, _⟩, _, _, _, _, hvisited⟩ := left
  obtain ⟨⟨slacks', parents', visited', _, _⟩, _, _, _, _, hvisited'⟩ := right
  obtain rfl : slacks = slacks' := ext_get hslack
  obtain rfl : parents = parents' := ext_get hparent
  cases hrows
  cases hcols
  obtain rfl : visited = visited' := ext_get fun j => (hvisited j).trans (hvisited' j).symm
  cases hpotentials
  cases hroot
  cases htally
  cases htrace
  rfl

theorem isVisited_eq (search : Search α m n) (j : Fin n) :
    search.isVisited j = search.cols.contains j := search.visited_eq j

theorem outside_eq (search : Search α m n) :
    search.outside = (List.finRange n).filter fun j => !search.cols.contains j := by
  simp only [Workspace.outside, isVisited_eq]

@[simp] theorem mem_outside {search : Search α m n} {j : Fin n} :
    j ∈ search.outside ↔ j ∉ search.cols := by
  simp [outside_eq]

def steps (search : Search α m n) : List α := search.trace.filterMap Event.step?

theorem visited_cons {visited : Vector Bool n} {cols : List (Fin n)}
    (h : ∀ j, visited.get j = cols.contains j) (col j : Fin n) :
    (visited.set col true col.isLt).get j = (col :: cols).contains j := by
  rw [get_set, List.contains_cons, h]
  by_cases hj : j = col <;> simp [hj]

def visit (search : Search α m n) (col : Fin n) : Search α m n :=
  { search with
    visited := search.visited.set col true col.isLt
    cols := col :: search.cols
    tally := { search.tally with columnsScanned := search.tally.columnsScanned + 1 }
    visited_eq := visited_cons search.visited_eq col }

@[simp] theorem rows_visit (search : Search α m n) (col : Fin n) :
    (search.visit col).rows = search.rows := rfl

@[simp] theorem cols_visit (search : Search α m n) (col : Fin n) :
    (search.visit col).cols = col :: search.cols := rfl

@[simp] theorem slack_visit (search : Search α m n) (col j : Fin n) :
    (search.visit col).slack j = search.slack j := rfl

@[simp] theorem parent_visit (search : Search α m n) (col j : Fin n) :
    (search.visit col).parent j = search.parent j := rfl

@[simp] theorem potentials_visit (search : Search α m n) (col : Fin n) :
    (search.visit col).potentials = search.potentials := rfl

@[simp] theorem steps_visit (search : Search α m n) (col : Fin n) :
    (search.visit col).steps = search.steps := rfl

def enter (search : Search α m n) (row : Fin m) : Search α m n :=
  { search with rows := row :: search.rows }

@[simp] theorem rows_enter (search : Search α m n) (row : Fin m) :
    (search.enter row).rows = row :: search.rows := rfl

@[simp] theorem cols_enter (search : Search α m n) (row : Fin m) :
    (search.enter row).cols = search.cols := rfl

@[simp] theorem slack_enter (search : Search α m n) (row : Fin m) (j : Fin n) :
    (search.enter row).slack j = search.slack j := rfl

@[simp] theorem parent_enter (search : Search α m n) (row : Fin m) (j : Fin n) :
    (search.enter row).parent j = search.parent j := rfl

@[simp] theorem potentials_enter (search : Search α m n) (row : Fin m) :
    (search.enter row).potentials = search.potentials := rfl

@[simp] theorem steps_enter (search : Search α m n) (row : Fin m) :
    (search.enter row).steps = search.steps := rfl

variable [Scalar α]

theorem visited_restart (workspace : Workspace α m n) (root : Fin m) (j : Fin n) :
    (workspace.restart root).visited.get j = (workspace.restart root).cols.contains j := by
  simp [Workspace.restart]

def start (workspace : Workspace α m n) (potentials : Potentials α m n) (root : Fin m) :
    Search α m n where
  toWorkspace := workspace.restart root
  potentials := potentials
  root := root.val
  tally := {}
  trace := []
  visited_eq := visited_restart workspace root

def closer (search : Search α m n) (costs : Grid α m n) (row : Fin m) (j : Fin n) : Bool :=
  !search.isVisited j && search.potentials.slack costs row j < search.slack j

@[simp] theorem closer_eq_true {search : Search α m n} {costs : Grid α m n} {row : Fin m}
    {j : Fin n} :
    search.closer costs row j = true ↔
      j ∉ search.cols ∧ search.potentials.slack costs row j < search.slack j := by
  simp [closer, isVisited_eq]

theorem closer_of_mem {search : Search α m n} (h : j ∈ search.cols) (costs : Grid α m n)
    (row : Fin m) : search.closer costs row j = false := by
  simp [closer, isVisited_eq, h]

/-- Compares the slacks of a row new in the tree with what the columns outside remember. -/
def relax (search : Search α m n) (costs : Grid α m n) (row : Fin m) : Search α m n :=
  { search with
    slacks := Vector.ofFn fun j =>
      if search.closer costs row j then search.potentials.slack costs row j else search.slack j
    parents := Vector.ofFn fun j =>
      if search.closer costs row j then row.val else search.parent j }

@[simp] theorem slack_relax (search : Search α m n) (costs : Grid α m n) (row : Fin m)
    (j : Fin n) :
    (search.relax costs row).slack j =
      if search.closer costs row j then search.potentials.slack costs row j
      else search.slack j := by
  simp [relax, Workspace.slack]

@[simp] theorem parent_relax (search : Search α m n) (costs : Grid α m n) (row : Fin m)
    (j : Fin n) :
    (search.relax costs row).parent j =
      if search.closer costs row j then row.val else search.parent j := by
  simp [relax, Workspace.parent]

theorem slack_relax_of_mem {search : Search α m n} (h : j ∈ search.cols) (costs : Grid α m n)
    (row : Fin m) : (search.relax costs row).slack j = search.slack j := by
  simp [closer_of_mem h]

theorem parent_relax_of_mem {search : Search α m n} (h : j ∈ search.cols) (costs : Grid α m n)
    (row : Fin m) : (search.relax costs row).parent j = search.parent j := by
  simp [closer_of_mem h]

@[simp] theorem rows_relax (search : Search α m n) (costs : Grid α m n) (row : Fin m) :
    (search.relax costs row).rows = search.rows := rfl

@[simp] theorem cols_relax (search : Search α m n) (costs : Grid α m n) (row : Fin m) :
    (search.relax costs row).cols = search.cols := rfl

@[simp] theorem potentials_relax (search : Search α m n) (costs : Grid α m n) (row : Fin m) :
    (search.relax costs row).potentials = search.potentials := rfl

@[simp] theorem steps_relax (search : Search α m n) (costs : Grid α m n) (row : Fin m) :
    (search.relax costs row).steps = search.steps := rfl

section
variable {potentials : Potentials α m n} {costs : Grid α m n} {root : Fin m} {j : Fin n}

private theorem closer_start (h : potentials.slack costs root j < Scalar.infinity)
    (workspace : Workspace α m n) : (start workspace potentials root).closer costs root j = true :=
  closer_eq_true.mpr ⟨List.not_mem_nil, by simpa [start] using h⟩

theorem slack_relax_start (h : potentials.slack costs root j < Scalar.infinity)
    (workspace : Workspace α m n) :
    ((start workspace potentials root).relax costs root).slack j =
      potentials.slack costs root j := by
  rw [slack_relax, if_pos (closer_start h workspace)]
  rfl

theorem parent_relax_start (h : potentials.slack costs root j < Scalar.infinity)
    (workspace : Workspace α m n) :
    ((start workspace potentials root).relax costs root).parent j = root.val := by
  rw [parent_relax, if_pos (closer_start h workspace)]

end

def nearer (search : Search α m n) (best j : Fin n) : Fin n :=
  if search.slack best ≤ search.slack j then best else j

/-- A column outside the tree with the least slack, the lowest of equal ones. -/
def nearest? (search : Search α m n) : Option (Fin n) :=
  match search.outside with
  | [] => none
  | first :: rest => some (rest.foldl search.nearer first)

theorem nearest?_eq_none_iff {search : Search α m n} :
    search.nearest? = none ↔ search.outside = [] := by
  unfold nearest?
  cases search.outside <;> simp

private theorem foldl_nearer_mem (search : Search α m n) (first : Fin n) (rest : List (Fin n)) :
    rest.foldl search.nearer first ∈ first :: rest := by
  induction rest generalizing first with
  | nil => exact List.mem_singleton_self first
  | cons j rest ih =>
    rw [List.foldl_cons]
    rcases List.mem_cons.mp (ih (search.nearer first j)) with h | h
    · rw [h, nearer]
      split
      · exact List.mem_cons_self
      · exact List.mem_cons_of_mem _ List.mem_cons_self
    · exact List.mem_cons_of_mem _ (List.mem_cons_of_mem _ h)

theorem mem_outside_of_nearest? {search : Search α m n} {col : Fin n}
    (h : search.nearest? = some col) : col ∈ search.outside := by
  unfold nearest? at h
  split at h
  · cases h
  · rename_i first rest houtside
    rw [houtside, ← Option.some.inj h]
    exact foldl_nearer_mem search first rest

/-- Moves the potentials by a positive step, which is counted and logged; the tree stays tight and
all else comes nearer. -/
def lower (search : Search α m n) (step : α) : Search α m n :=
  if 0 < step then
    { search with
      potentials := search.potentials.shift search.rows search.cols step
      slacks := Vector.ofFn fun j =>
        if search.isVisited j then search.slack j else search.slack j - step
      tally := { search.tally with dualUpdates := search.tally.dualUpdates + 1 }
      trace := .dualStep search.root step :: search.trace }
  else search

theorem slack_lower_of_pos (search : Search α m n) {step : α} (h : 0 < step) (j : Fin n) :
    (search.lower step).slack j =
      if search.cols.contains j then search.slack j else search.slack j - step := by
  simp [lower, h, Workspace.slack, isVisited_eq]

theorem potentials_lower_of_pos (search : Search α m n) {step : α} (h : 0 < step) :
    (search.lower step).potentials = search.potentials.shift search.rows search.cols step := by
  simp [lower, h]

theorem lower_of_not_pos (search : Search α m n) {step : α} (h : ¬0 < step) :
    search.lower step = search := by
  simp [lower, h]

theorem slack_lower_of_mem {search : Search α m n} (h : j ∈ search.cols) (step : α) :
    (search.lower step).slack j = search.slack j := by
  by_cases hpos : 0 < step
  · simp [slack_lower_of_pos search hpos, h]
  · rw [lower_of_not_pos search hpos]

@[simp] theorem rows_lower (search : Search α m n) (step : α) :
    (search.lower step).rows = search.rows := by
  unfold lower
  split <;> rfl

@[simp] theorem cols_lower (search : Search α m n) (step : α) :
    (search.lower step).cols = search.cols := by
  unfold lower
  split <;> rfl

@[simp] theorem parent_lower (search : Search α m n) (step : α) (j : Fin n) :
    (search.lower step).parent j = search.parent j := by
  unfold lower
  split <;> rfl

/-- One round: the newest row is compared, and the nearest column enters the tree. -/
def advance (search : Search α m n) (costs : Grid α m n) (row : Fin m) :
    Option (Fin n × Search α m n) :=
  let relaxed := search.relax costs row
  relaxed.nearest?.map fun col => (col, (relaxed.lower (relaxed.slack col)).visit col)

theorem advance_eq_some {search next : Search α m n} {costs : Grid α m n} {row : Fin m}
    {col : Fin n} :
    search.advance costs row = some (col, next) ↔
      (search.relax costs row).nearest? = some col ∧
        next = ((search.relax costs row).lower ((search.relax costs row).slack col)).visit col := by
  simp only [advance, Option.map_eq_some_iff, Prod.mk.injEq]
  constructor
  · rintro ⟨j, hj, rfl, rfl⟩
    exact ⟨hj, rfl⟩
  · rintro ⟨hj, rfl⟩
    exact ⟨col, hj, rfl, rfl⟩

theorem cols_of_advance {search next : Search α m n} {costs : Grid α m n} {row : Fin m}
    {col : Fin n} (h : search.advance costs row = some (col, next)) :
    col ∉ search.cols ∧ next.cols = col :: search.cols ∧ next.rows = search.rows := by
  obtain ⟨hj, rfl⟩ := advance_eq_some.mp h
  have houtside := mem_outside.mp (mem_outside_of_nearest? hj)
  exact ⟨houtside, by simp, by simp⟩

theorem parent_of_advance {search next : Search α m n} {costs : Grid α m n} {row : Fin m}
    {col : Fin n} (h : search.advance costs row = some (col, next)) (j : Fin n) :
    next.parent j = (search.relax costs row).parent j := by
  obtain ⟨-, rfl⟩ := advance_eq_some.mp h
  rw [parent_visit, parent_lower]

def grow (costs : Grid α m n) (matching : Matching m n) :
    Nat → Fin m → Search α m n → Except Fault (Fin n × Search α m n)
  | 0, _, _ => .error .noColumnLeft
  | rounds + 1, row, search =>
    match search.advance costs row with
    | none => .error .noColumnLeft
    | some (col, next) =>
      match matching.rowOf col with
      | none => .ok (col, next)
      | some owner => grow costs matching rounds owner (next.enter owner)

/-- The whole search. Each round takes a column, so there are no more rounds than columns. -/
def run (costs : Grid α m n) (matching : Matching m n) (workspace : Workspace α m n)
    (potentials : Potentials α m n) (root : Fin m) : Except Fault (Fin n × Search α m n) :=
  grow costs matching n root (start workspace potentials root)

end Search
end LinearAssignment
