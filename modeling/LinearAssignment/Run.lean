import LinearAssignment.Journal
import LinearAssignment.Matching.Augment
import LinearAssignment.Search

/-! A run of phases over a table of costs. Each phase searches from the lowest free row and flips
the path that the search found, so that every phase matches one more row and unmatches none. -/
namespace LinearAssignment

structure Run (α : Type) (m n : Nat) where
  potentials : Potentials α m n
  matching : Matching m n
  tally : Tally
  trace : List (Event α)
  workspace : Workspace α m n

namespace Run

variable [Scalar α]

def start (costs : Grid α m n) : Run α m n where
  potentials := Potentials.initial costs
  matching := Matching.empty m n
  tally := {}
  trace := []
  workspace := Workspace.fresh m n

def phaseTally (search : Search α m n) : Tally := { search.tally with phases := 1 }

def phaseTrace (root : Fin m) (col : Fin n) (search : Search α m n) : List (Event α) :=
  search.trace.reverse ++ [.matched root.val col.val search.rows.length]

/-- Matches one more row, the given free one. -/
def phase (costs : Grid α m n) (run : Run α m n) (root : Fin m) : Except Fault (Run α m n) := do
  let (col, search) ← Search.run costs run.matching run.workspace run.potentials root
  let matching ← run.matching.augment root.val col.val search.parents.toArray
  return {
    potentials := search.potentials
    matching
    tally := run.tally.add (phaseTally search)
    trace := run.trace ++ phaseTrace root col search
    workspace := search.toWorkspace }

/-- The phase of the lowest free row. Without one the run stays as it is. -/
def advance (costs : Grid α m n) (run : Run α m n) : Except Fault (Run α m n) :=
  match run.matching.freeRows.head? with
  | none => .ok run
  | some root => run.phase costs root

def phases (costs : Grid α m n) : Nat → Run α m n → Except Fault (Run α m n)
  | 0, run => .ok run
  | count + 1, run => do phases costs count (← run.advance costs)

@[simp] theorem phases_zero (costs : Grid α m n) (run : Run α m n) :
    phases costs 0 run = .ok run := rfl

theorem phases_succ (costs : Grid α m n) (count : Nat) (run : Run α m n) :
    phases costs (count + 1) run = (run.advance costs >>= phases costs count) := rfl

theorem phases_add (costs : Grid α m n) (first second : Nat) (run : Run α m n) :
    phases costs (first + second) run = (phases costs first run >>= phases costs second) := by
  induction first generalizing run with
  | zero => simp [bind, Except.bind]
  | succ first ih =>
    rw [Nat.succ_add, phases_succ, phases_succ]
    cases run.advance costs with
    | error fault => rfl
    | ok next => exact ih next

/-- Phases until no row is free. Each one matches a row, so there are no more of them than rows. -/
def complete (costs : Grid α m n) (run : Run α m n) : Except Fault (Run α m n) :=
  phases costs m run

theorem advance_of_freeRows_nil {costs : Grid α m n} {run : Run α m n}
    (h : run.matching.freeRows = []) : run.advance costs = .ok run := by
  simp [advance, h]

theorem phases_of_freeRows_nil {costs : Grid α m n} {run : Run α m n}
    (h : run.matching.freeRows = []) (count : Nat) : phases costs count run = .ok run := by
  induction count with
  | zero => rfl
  | succ count ih => simpa [phases_succ, advance_of_freeRows_nil h, bind, Except.bind] using ih

end Run
end LinearAssignment
