import LinearAssignment.Proofs.Run.Certified
import LinearAssignment.Proofs.Search.Ended
import LinearAssignment.Proofs.Search.Ties

/-! How much a run has to look at. The search of a phase visits matched columns before it ends at a
free one, and there are as many matched columns as phases before; so the columns scanned by all
phases stay below a triangular number, however many columns there are. -/
namespace LinearAssignment

namespace Run

theorem Progress.length_pairs {run : Run α m n} (h : Progress count run) (hcount : count ≤ m) :
    run.matching.pairs.length = count := by
  have hrows : run.matching.matchedRows =
      Finset.univ.filter fun row : Fin m => row.val < count := by
    ext row
    rw [Matching.mem_matchedRows, Ne, h.free_iff, Finset.mem_filter, Nat.not_le]
    simp
  rw [h.consistent.length_pairs_eq_card_rows, hrows, Fin.card_filter_val_lt,
    Nat.min_eq_right hcount]

theorem Progress.counts {run : Run α m n} (h : Progress count run) (hcount : count ≤ m) :
    run.matching.Counts := h.size_eq.trans (h.length_pairs hcount).symm

section
variable [Scalar α] {costs : Grid α m n} {run : Run α m n}

theorem Phase.ended {search : Search α m n} {path : List (Fin m × Fin n)}
    (hphase : Phase costs run root col search path) (hm : run.matching.Consistent)
    (hcounts : run.matching.Counts) : Search.Ended costs run.matching root col search :=
  Search.ended_of_run hm hcounts hphase.leads.root_free hphase.searched

theorem Phase.scans {hcount : count < m} {search : Search α m n} {path : List (Fin m × Fin n)}
    (hphase : Phase costs run ⟨count, hcount⟩ col search path) (h : Progress count run) :
    1 ≤ search.cols.length ∧ search.cols.length ≤ count + 1 := by
  have hended := hphase.ended h.consistent (h.counts hcount.le)
  have hle := hended.length_cols_le
  rw [h.size_eq] at hle
  obtain ⟨older, hcols, -⟩ := hended.cols_eq
  refine ⟨?_, hle⟩
  rw [hcols]
  exact Nat.succ_le_succ (Nat.zero_le _)

structure Worked (count : Nat) (run : Run α m n) : Prop where
  scanned_ge : count ≤ run.tally.columnsScanned
  scanned_le : 2 * run.tally.columnsScanned ≤ count * (count + 1)
  updates_le : run.tally.dualUpdates ≤ run.tally.columnsScanned

theorem worked_start (costs : Grid α m n) : Worked 0 (start costs) :=
  ⟨Nat.le_refl 0, Nat.le_refl 0, Nat.le_refl 0⟩

theorem Worked.after {hcount : count < m} {search : Search α m n} {path : List (Fin m × Fin n)}
    (h : Worked count run) (hprogress : Progress count run)
    (hphase : Phase costs run ⟨count, hcount⟩ col search path) :
    Worked (count + 1) (run.after ⟨count, hcount⟩ col search path) := by
  obtain ⟨hone, hle⟩ := hphase.scans hprogress
  have hsteps := Search.length_steps_le hphase.searched
  constructor
  case scanned_ge =>
    rw [hphase.columnsScanned_after]
    exact Nat.add_le_add h.scanned_ge hone
  case scanned_le =>
    calc 2 * (run.after ⟨count, hcount⟩ col search path).tally.columnsScanned
        = 2 * (run.tally.columnsScanned + search.cols.length) := by
          rw [hphase.columnsScanned_after]
      _ ≤ count * (count + 1) + 2 * (count + 1) := by
          rw [Nat.mul_add]
          exact Nat.add_le_add h.scanned_le (Nat.mul_le_mul_left 2 hle)
      _ = (count + 1) * (count + 1 + 1) := by ring
  case updates_le =>
    rw [hphase.dualUpdates_after, hphase.columnsScanned_after]
    exact Nat.add_le_add h.updates_le hsteps

/-- What the phase of a root, the lowest free row after as many phases, adds to the counters. -/
def ScansWithin (costs : Grid α m n) (root : Fin m) : Prop :=
  ∃ run next, phases costs root.val (start costs) = .ok run ∧
    run.matching.freeRows.head? = some root ∧
    phases costs (root.val + 1) (start costs) = .ok next ∧
    ∃ scanned updates, next.tally = run.tally.add ⟨1, updates, scanned⟩ ∧
      1 ≤ scanned ∧ scanned ≤ root.val + 1 ∧ updates ≤ scanned

theorem SlacksBelowInfinity.scansWithin (hslack : SlacksBelowInfinity costs) (hmn : m ≤ n)
    (root : Fin m) : ScansWithin costs root := by
  obtain ⟨run, hrun, hprogress⟩ := exists_progress hmn hslack root.isLt.le
  have hbelow := hslack.slack_lt root.isLt hrun hprogress
  obtain ⟨col, search, path, hphase⟩ := hprogress.exists_phase root.isLt hmn hbelow
  obtain ⟨hone, hle⟩ := hphase.scans hprogress
  have hreports := hphase.reports
  rw [← hreports.scanned_eq] at hone hle
  have hsteps := Search.length_steps_le hphase.searched
  rw [← hreports.updates_eq, ← hreports.scanned_eq] at hsteps
  exact ⟨run, _, hrun, hprogress.head_freeRows root.isLt,
    phases_succ_of_ok hrun (hprogress.advance_eq root.isLt hphase), search.tally.columnsScanned,
    search.tally.dualUpdates, rfl, hone, hle, hsteps⟩

end

variable [Field K] [LinearOrder K] {cost : Fin m → Fin n → K}

/-- In exact arithmetic a run makes fewer steps than it scans columns, because it makes none in its
first phase. -/
structure Spared (cost : Fin m → Fin n → K) (count : Nat) (run : Run (Exact K) m n) : Prop
    extends Worked count run where
  start_of_zero : count = 0 → run = start (Grid.exact cost)
  updates_lt : 0 < count → run.tally.dualUpdates < run.tally.columnsScanned

theorem spared_start (cost : Fin m → Fin n → K) : Spared cost 0 (start (Grid.exact cost)) where
  toWorked := worked_start _
  start_of_zero _ := rfl
  updates_lt h := absurd h (Nat.lt_irrefl 0)

theorem Spared.updates_eq_zero {run : Run (Exact K) m n} (h : Spared cost 1 run) :
    run.tally.dualUpdates = 0 := by
  have hless := h.updates_lt Nat.one_pos
  have hle := h.scanned_le
  omega

variable [IsStrictOrderedRing K]

/-- The first phase ends at the first column that it visits. This column is as cheap as any in its
row, and so there is no step to make. -/
theorem Phase.steps_of_start {root : Fin m} {search : Search (Exact K) m n}
    {path : List (Fin m × Fin n)}
    (hphase : Phase (Grid.exact cost) (start (Grid.exact cost)) root col search path)
    (hmn : m ≤ n) : search.steps = [] := by
  obtain ⟨first, hfirst⟩ := exists_firstCheapest cost (Nat.lt_of_lt_of_le root.pos hmn) root
  rcases Search.immediate_or_longer hmn hphase.searched hfirst with
    ⟨-, -, himmediate⟩ | ⟨howned, -⟩
  · exact himmediate.steps_eq
  · exact absurd (Matching.rowOf_empty first) howned

theorem Spared.after {run : Run (Exact K) m n} {hcount : count < m}
    {search : Search (Exact K) m n} {path : List (Fin m × Fin n)} (h : Spared cost count run)
    (hprogress : Progress count run)
    (hphase : Phase (Grid.exact cost) run ⟨count, hcount⟩ col search path) (hmn : m ≤ n) :
    Spared cost (count + 1) (run.after ⟨count, hcount⟩ col search path) where
  toWorked := h.toWorked.after hprogress hphase
  start_of_zero hzero := (Nat.succ_ne_zero count hzero).elim
  updates_lt _ := by
    rw [hphase.dualUpdates_after, hphase.columnsScanned_after]
    rcases Nat.eq_zero_or_pos count with rfl | hpos
    · obtain rfl := h.start_of_zero rfl
      rw [hphase.steps_of_start hmn]
      exact Nat.add_lt_add_left (hphase.scans hprogress).1 0
    · exact Nat.add_lt_add_of_lt_of_le (h.updates_lt hpos)
        (Search.length_steps_le hphase.searched)

theorem exists_spared (cost : Fin m → Fin n → K) (hmn : m ≤ n)
    (hcount : count ≤ m) :
    ∃ run, phases (Grid.exact cost) count (start (Grid.exact cost)) = .ok run ∧
      Progress count run ∧ Spared cost count run := by
  refine exists_phases (Spared cost) hmn (spared_start cost) ?_ ?_ hcount
  · exact fun _ _ hlt hrun hprogress _ =>
      (slacksBelowInfinity_exact cost hmn).slack_lt hlt hrun hprogress
  · exact fun _ _ _ _ _ _ hprogress hspared hphase => hspared.after hprogress hphase hmn

end Run
end LinearAssignment
