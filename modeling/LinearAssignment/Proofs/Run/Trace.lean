import LinearAssignment.Proofs.Run.Certified

/-! The trace of a run, read back. Events come phase by phase in the order of the roots; counting
them gives the counters, the columns that they name are the matched ones, and in exact arithmetic
their steps are all that the total of the potentials has gained. -/
namespace LinearAssignment

namespace Event

def col? : Event α → Option Nat
  | .dualStep .. => none
  | .matched _ col _ => some col

def visitedRows? : Event α → Option Nat
  | .dualStep .. => none
  | .matched _ _ visitedRows => some visitedRows

end Event

/-- A trace of the roots below a count, in order: of each root some steps, all of them positive,
and then one match. -/
inductive Chronicle [Scalar α] : Nat → List (Event α) → Prop where
  | start : Chronicle 0 []
  | phase {steps : List α} (earlier : Chronicle root trace) (hsteps : ∀ step ∈ steps, 0 < step)
      (col visitedRows : Nat) :
      Chronicle (root + 1)
        (trace ++ (steps.map (Event.dualStep root) ++ [.matched root col visitedRows]))

theorem Chronicle.pos_of_mem [Scalar α] {trace : List (Event α)} (h : Chronicle count trace) :
    ∀ step ∈ trace.filterMap Event.step?, 0 < step := by
  induction h with
  | start =>
    intro step hstep
    cases hstep
  | phase earlier hsteps col visitedRows ih =>
    intro step hstep
    simp only [List.filterMap_append, List.filterMap_map, List.mem_append] at hstep
    rcases hstep with hearlier | hown | hmatch
    · exact ih step hearlier
    · exact hsteps step (by simpa [Function.comp_def, Event.step?] using hown)
    · cases hmatch

namespace Run

def tracedSteps (run : Run α m n) : List α := run.trace.filterMap Event.step?

def tracedCols (run : Run α m n) : List Nat := run.trace.filterMap Event.col?

def tracedVisits (run : Run α m n) : List Nat := run.trace.filterMap Event.visitedRows?

section
variable [Scalar α] {costs : Grid α m n}

namespace Phase

variable {run : Run α m n} {root : Fin m} {search : Search α m n} {path : List (Fin m × Fin n)}

theorem tracedSteps_after (h : Phase costs run root col search path) :
    (run.after root col search path).tracedSteps = run.tracedSteps ++ search.steps.reverse := by
  simp [tracedSteps, h.trace_after, Function.comp_def, Event.step?]

theorem tracedCols_after (h : Phase costs run root col search path) :
    (run.after root col search path).tracedCols = run.tracedCols ++ [col.val] := by
  simp [tracedCols, h.trace_after, Function.comp_def, Event.col?]

theorem tracedVisits_after (h : Phase costs run root col search path) :
    (run.after root col search path).tracedVisits =
      run.tracedVisits ++ [search.rows.length] := by
  simp [tracedVisits, h.trace_after, Function.comp_def, Event.visitedRows?]

end Phase

structure Told (count : Nat) (run : Run α m n) : Prop where
  chronicle : Chronicle count run.trace
  length_cols : run.tracedCols.length = run.tally.phases
  length_steps : run.tracedSteps.length = run.tally.dualUpdates
  sum_visits : run.tracedVisits.sum = run.tally.columnsScanned
  nodup_cols : run.tracedCols.Nodup
  mem_cols : ∀ col, col ∈ run.tracedCols ↔ ∃ j ∈ run.matching.matchedCols, j.val = col

theorem told_start (costs : Grid α m n) : Told 0 (start costs) where
  chronicle := .start
  length_cols := rfl
  length_steps := rfl
  sum_visits := rfl
  nodup_cols := List.nodup_nil
  mem_cols := by
    intro col
    constructor
    · intro hcol
      cases hcol
    · rintro ⟨j, hj, -⟩
      rw [Matching.mem_matchedCols] at hj
      exact absurd (by simp [start]) hj

theorem Told.after {run : Run α m n} (h : Told count run) (hm : run.matching.Consistent)
    {hcount : count < m} {search : Search α m n} {path : List (Fin m × Fin n)}
    (hphase : Phase costs run ⟨count, hcount⟩ col search path) :
    Told (count + 1) (run.after ⟨count, hcount⟩ col search path) := by
  have hmatched : (run.after ⟨count, hcount⟩ col search path).matching.matchedCols =
      insert col run.matching.matchedCols :=
    hphase.leads.matchedCols_pairAll hm
  constructor
  case chronicle =>
    rw [hphase.trace_after]
    refine .phase h.chronicle (fun step hstep => ?_) col.val search.rows.length
    exact Search.pos_of_mem_steps hphase.searched step (List.mem_reverse.mp hstep)
  case length_cols =>
    rw [hphase.tracedCols_after, List.length_append, h.length_cols]
    rfl
  case length_steps =>
    rw [hphase.tracedSteps_after, List.length_append, List.length_reverse, h.length_steps,
      hphase.dualUpdates_after]
  case sum_visits =>
    rw [hphase.tracedVisits_after, List.sum_append, List.sum_singleton, h.sum_visits,
      Search.length_rows_eq_length_cols hphase.searched, hphase.columnsScanned_after]
  case nodup_cols =>
    -- The search ended at a free column, and only matched ones have been named before.
    have hnew : col.val ∉ run.tracedCols := by
      intro hcol
      obtain ⟨j, hj, heq⟩ := (h.mem_cols _).mp hcol
      rw [Fin.ext heq, Matching.mem_matchedCols] at hj
      exact hj hphase.free
    rw [hphase.tracedCols_after]
    exact h.nodup_cols.append (List.nodup_singleton _) (List.disjoint_singleton.mpr hnew)
  case mem_cols =>
    intro k
    rw [hphase.tracedCols_after, List.mem_append, List.mem_singleton, h.mem_cols, hmatched]
    simp only [Finset.mem_insert, exists_eq_or_imp]
    exact or_comm.trans (or_congr_left eq_comm)

theorem exists_told (hmn : m ≤ n) (hslack : SlacksBelowInfinity costs) (hcount : count ≤ m) :
    ∃ run, phases costs count (start costs) = .ok run ∧ Progress count run ∧ Told count run := by
  refine exists_phases Told hmn (told_start costs) ?_ ?_ hcount
  · exact fun _ _ hlt hrun hprogress _ => hslack.slack_lt hlt hrun hprogress
  · exact fun _ _ _ _ _ _ hprogress htold hphase => htold.after hprogress.consistent hphase

end

variable [Field K] [LinearOrder K] {cost : Fin m → Fin n → K}

def Gained (cost : Fin m → Fin n → K) (run : Run (Exact K) m n) : Prop :=
  run.potentials.total =
    (Potentials.initial (Grid.exact cost)).total + Scalar.sum run.tracedSteps

theorem gained_start (cost : Fin m → Fin n → K) : Gained cost (start (Grid.exact cost)) :=
  (Exact.add_zero _).symm

variable [IsStrictOrderedRing K]

theorem Gained.after {run : Run (Exact K) m n} {root : Fin m} {search : Search (Exact K) m n}
    {path : List (Fin m × Fin n)} (h : Gained cost run) (hm : run.matching.Consistent)
    (hcertified : Certified cost run)
    (hphase : Phase (Grid.exact cost) run root col search path) :
    Gained cost (run.after root col search path) := by
  obtain ⟨u, v, hpotentials, hcert⟩ := hcertified
  obtain ⟨hgained, -⟩ := hphase.exists_aligned hm hpotentials hcert
  calc search.potentials.total
      = run.potentials.total + Scalar.sum search.steps.reverse := hgained
    _ = (Potentials.initial (Grid.exact cost)).total +
          Scalar.sum (run.after root col search path).tracedSteps := by
        rw [h, hphase.tracedSteps_after, Exact.sum_append, Exact.add_assoc]

/-- Each step adds to the total, so a total that is still the initial one tells of no step. -/
theorem Gained.updates_eq_zero_iff {run : Run (Exact K) m n} (h : Gained cost run)
    (htold : Told count run)
    (hinitial : (Potentials.initial (Grid.exact cost)).total = .finite total) :
    run.tally.dualUpdates = 0 ↔ run.potentials.total = .finite total := by
  have hpos : ∀ step ∈ run.tracedSteps, 0 < step := htold.chronicle.pos_of_mem
  rw [← htold.length_steps, List.length_eq_zero_iff, ← Exact.sum_eq_zero_iff hpos, h, hinitial]
  constructor
  · intro hzero
    rw [hzero, Exact.add_zero]
  · intro htotal
    rw [Exact.eq_finite_sub htotal.symm, sub_self]
    rfl

theorem exists_gained (cost : Fin m → Fin n → K) (hmn : m ≤ n) (hcount : count ≤ m) :
    ∃ run, phases (Grid.exact cost) count (start (Grid.exact cost)) = .ok run ∧
      Progress count run ∧ Certified cost run ∧ Gained cost run := by
  refine exists_phases (fun _ run => Certified cost run ∧ Gained cost run) hmn ?_ ?_ ?_ hcount
  · exact ⟨certificate_initial cost hmn, gained_start cost⟩
  · exact fun _ _ _ _ _ h => h.1.slack_lt_infinity _
  · rintro count run hlt col search path hprogress ⟨hcertified, hgained⟩ hphase
    exact ⟨hcertified.after hprogress.consistent hphase,
      hgained.after hprogress.consistent hcertified hphase⟩

end Run
end LinearAssignment
