import LinearAssignment.Run
import LinearAssignment.Proofs.Search.Reports
import LinearAssignment.Proofs.Search.Tree

/-! Phases in a row. Whatever the numbers are, the lowest free row is the root of the next phase
and the only row that the phase adds to the matched ones, so after some phases the rows below
their count are matched and no others. -/
namespace LinearAssignment.Run

/-- The rows below the count are matched, one in each phase. -/
structure Progress (count : Nat) (run : Run α m n) : Prop where
  consistent : run.matching.Consistent
  free_iff : ∀ row, run.matching.columnOf row = none ↔ count ≤ row.val
  size_eq : run.matching.size = count
  phases_eq : run.tally.phases = count

theorem Progress.head_freeRows {run : Run α m n} (h : Progress count run) (hcount : count < m) :
    run.matching.freeRows.head? = some ⟨count, hcount⟩ := by
  rw [Matching.head_freeRows_eq_some]
  refine ⟨(h.free_iff _).mpr le_rfl, fun i hi => ?_⟩
  rw [Ne, h.free_iff]
  exact Nat.not_le.mpr hi

theorem Progress.columnOf_ne_none {run : Run α m n} (h : Progress m run) (row : Fin m) :
    run.matching.columnOf row ≠ none := by
  rw [Ne, h.free_iff]
  exact Nat.not_le.mpr row.isLt

theorem Progress.freeRows_nil {run : Run α m n} (h : Progress m run) :
    run.matching.freeRows = [] := by
  apply List.eq_nil_iff_forall_not_mem.mpr
  intro row hrow
  exact h.columnOf_ne_none row (Matching.mem_freeRows.mp hrow)

def after (run : Run α m n) (root : Fin m) (col : Fin n) (search : Search α m n)
    (path : List (Fin m × Fin n)) : Run α m n where
  potentials := search.potentials
  matching := (run.matching.pairAll path).countOne
  tally := run.tally.add (phaseTally search)
  trace := run.trace ++ phaseTrace root col search
  workspace := search.toWorkspace

variable [Scalar α] {costs : Grid α m n}

structure Phase (costs : Grid α m n) (run : Run α m n) (root : Fin m) (col : Fin n)
    (search : Search α m n) (path : List (Fin m × Fin n)) : Prop where
  searched : Search.run costs run.matching run.workspace run.potentials root = .ok (col, search)
  free : run.matching.rowOf col = none
  leads : run.matching.Path search.parents.toArray root col path
  visited : ∀ pair ∈ path, pair.2 ∈ search.cols

namespace Phase

variable {run : Run α m n} {root : Fin m} {search : Search α m n} {path : List (Fin m × Fin n)}

theorem phase_eq (h : Phase costs run root col search path) :
    run.phase costs root = .ok (run.after root col search path) := by
  have haugment := h.leads.augment_eq h.free
  simp only [phase, h.searched, haugment, bind, Except.bind, pure, Except.pure]
  rfl

theorem reports (h : Phase costs run root col search path) :
    search.Reports root := Search.reports_of_run h.searched

theorem dualUpdates_after (h : Phase costs run root col search path) :
    (run.after root col search path).tally.dualUpdates =
      run.tally.dualUpdates + search.steps.length :=
  congrArg (run.tally.dualUpdates + ·) h.reports.updates_eq

theorem columnsScanned_after (h : Phase costs run root col search path) :
    (run.after root col search path).tally.columnsScanned =
      run.tally.columnsScanned + search.cols.length :=
  congrArg (run.tally.columnsScanned + ·) h.reports.scanned_eq

theorem trace_after (h : Phase costs run root col search path) :
    (run.after root col search path).trace =
      run.trace ++ (search.steps.reverse.map (Event.dualStep root.val) ++
        [.matched root.val col.val search.rows.length]) := by
  rw [after, phaseTrace, h.reports.trace_eq, ← List.map_reverse]

theorem columnOf_after (h : Phase costs run root col search path)
    (hparent : search.parent col = root.val) (i : Fin m) :
    (run.after root col search path).matching.columnOf i =
      if i = root then some col else run.matching.columnOf i := by
  have hpath : path = [(root, col)] :=
    (h.leads.unique (.last (Search.parentRow_of_get hparent) h.leads.root_free)).2
  change (run.matching.pairAll path).columnOf i = _
  rw [hpath, Matching.pairAll_cons, Matching.pairAll_nil, Matching.columnOf_pair]

end Phase

theorem exists_phase {run : Run α m n} (hm : run.matching.Consistent) (hmn : m ≤ n)
    (hroot : run.matching.columnOf root = none)
    (hslack : ∀ j, run.potentials.slack costs root j < Scalar.infinity) :
    ∃ col search path, Phase costs run root col search path := by
  obtain ⟨col, search, hrun⟩ := Search.run_ok hm hroot hmn run.workspace run.potentials
  obtain ⟨hfree, path, hpath, hvisited⟩ := Search.exists_path_of_run hm hroot hslack hrun
  exact ⟨col, search, path, hrun, hfree, hpath, hvisited⟩

theorem progress_start (costs : Grid α m n) : Progress 0 (start costs) where
  consistent := Matching.consistent_empty m n
  free_iff := fun row => by simp [start]
  size_eq := rfl
  phases_eq := rfl

theorem Progress.after {run : Run α m n} (h : Progress count run) (hcount : count < m)
    {search : Search α m n} {path : List (Fin m × Fin n)}
    (hphase : Phase costs run ⟨count, hcount⟩ col search path) :
    Progress (count + 1) (run.after ⟨count, hcount⟩ col search path) where
  consistent := hphase.leads.consistent_pairAll h.consistent hphase.free
  free_iff := by
    intro row
    have hpath : (run.matching.pairAll path).columnOf row = none ↔
        run.matching.columnOf row = none ∧ row ≠ ⟨count, hcount⟩ :=
      hphase.leads.columnOf_pairAll_eq_none
    rw [h.free_iff row, Ne, Fin.ext_iff] at hpath
    exact hpath.trans (by dsimp only; omega)
  size_eq := congrArg (· + 1) ((run.matching.size_pairAll path).trans h.size_eq)
  phases_eq := congrArg (· + 1) h.phases_eq

theorem phases_succ_of_ok {first run next : Run α m n}
    (hrun : phases costs count first = .ok run) (hnext : run.advance costs = .ok next) :
    phases costs (count + 1) first = .ok next := by
  rw [phases_add, hrun]
  change phases costs 1 run = .ok next
  rw [phases_succ, hnext]
  rfl

theorem Progress.advance_eq {run : Run α m n} {search : Search α m n}
    {path : List (Fin m × Fin n)} (h : Progress count run) (hcount : count < m)
    (hphase : Phase costs run ⟨count, hcount⟩ col search path) :
    run.advance costs = .ok (run.after ⟨count, hcount⟩ col search path) := by
  simp only [advance, h.head_freeRows hcount, hphase.phase_eq]

theorem Progress.exists_phase {run : Run α m n} (h : Progress count run) (hcount : count < m)
    (hmn : m ≤ n) (hslack : ∀ j, run.potentials.slack costs ⟨count, hcount⟩ j < Scalar.infinity) :
    ∃ col search path, Phase costs run ⟨count, hcount⟩ col search path :=
  Run.exists_phase h.consistent hmn ((h.free_iff _).mpr le_rfl) hslack

/-- Runs by their count of phases: what each phase hands on holds after any number of them, as long
as rows are left and their slacks are below the sentinel when they become roots. -/
theorem exists_phases (inv : Nat → Run α m n → Prop) (hmn : m ≤ n) (hstart : inv 0 (start costs))
    (hslack : ∀ count run, ∀ hlt : count < m, phases costs count (start costs) = .ok run →
      Progress count run → inv count run →
        ∀ j, run.potentials.slack costs ⟨count, hlt⟩ j < Scalar.infinity)
    (hafter : ∀ count run, ∀ hlt : count < m, ∀ col search path, Progress count run →
      inv count run → Phase costs run ⟨count, hlt⟩ col search path →
        inv (count + 1) (run.after ⟨count, hlt⟩ col search path))
    (hcount : count ≤ m) :
    ∃ run, phases costs count (start costs) = .ok run ∧ Progress count run ∧ inv count run := by
  induction count with
  | zero => exact ⟨start costs, rfl, progress_start costs, hstart⟩
  | succ count ih =>
    obtain ⟨run, hrun, hprogress, hinv⟩ := ih (Nat.le_of_succ_le hcount)
    obtain ⟨col, search, path, hphase⟩ :=
      hprogress.exists_phase hcount hmn (hslack count run hcount hrun hprogress hinv)
    exact ⟨_, phases_succ_of_ok hrun (hprogress.advance_eq hcount hphase),
      hprogress.after hcount hphase, hafter count run hcount col search path hprogress hinv hphase⟩

/-- At the start of every phase all slacks of its root are below the sentinel. -/
def SlacksBelowInfinity (costs : Grid α m n) : Prop :=
  ∀ count run root, phases costs count (start costs) = .ok run →
    run.matching.freeRows.head? = some root →
      ∀ j, run.potentials.slack costs root j < Scalar.infinity

theorem SlacksBelowInfinity.slack_lt {run : Run α m n} (h : SlacksBelowInfinity costs)
    (hcount : count < m) (hrun : phases costs count (start costs) = .ok run)
    (hprogress : Progress count run) (j : Fin n) :
    run.potentials.slack costs ⟨count, hcount⟩ j < Scalar.infinity :=
  h count run _ hrun (hprogress.head_freeRows hcount) j

theorem exists_progress (hmn : m ≤ n) (hslack : SlacksBelowInfinity costs) (hcount : count ≤ m) :
    ∃ run, phases costs count (start costs) = .ok run ∧ Progress count run := by
  obtain ⟨run, hrun, hprogress, -⟩ := exists_phases (fun _ _ => True) hmn trivial
    (fun _ _ hlt hrun hprogress _ => hslack.slack_lt hlt hrun hprogress)
    (fun _ _ _ _ _ _ _ _ _ => trivial) hcount
  exact ⟨run, hrun, hprogress⟩

theorem Progress.phases_of_le {run : Run α m n} (h : Progress m run)
    (hrun : phases costs m (start costs) = .ok run) (hle : m ≤ count) :
    phases costs count (start costs) = .ok run := by
  obtain ⟨more, rfl⟩ := Nat.exists_eq_add_of_le hle
  rw [phases_add, hrun]
  exact phases_of_freeRows_nil h.freeRows_nil more

end LinearAssignment.Run
