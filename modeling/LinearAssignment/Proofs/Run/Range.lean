import LinearAssignment.Proofs.Run.Certified
import LinearAssignment.Proofs.Search.Range

/-! The range of the numbers in a run, between phases and inside them. The bounds are the same for
every phase, so they do not depend on how many there have been. -/
namespace LinearAssignment.Run

structure PhaseRanged [Field K] [LinearOrder K] (ranges : Ranges K m) (costs : Grid (Exact K) m n)
    (run : Run (Exact K) m n) (root : Fin m) : Prop where
  rounds : ∀ round ∈ Search.history costs run.matching run.workspace run.potentials root,
    round.Ranged ranges costs
  steps : ∃ col last,
    Search.run costs run.matching run.workspace run.potentials root = .ok (col, last) ∧
      (∀ step ∈ last.steps, step ∈ Exact.finite '' ranges.step) ∧
      Scalar.sum last.steps.reverse ∈ Exact.finite '' ranges.step

/-- All numbers after any number of phases, and those of the phase that comes next. -/
def AllRanged [Field K] [LinearOrder K] (ranges : Ranges K m) (costs : Grid (Exact K) m n) : Prop :=
  ∀ count, ∃ run, phases costs count (start costs) = .ok run ∧
    Ranged ranges costs run.potentials run.workspace ∧
    ∀ root, run.matching.freeRows.head? = some root → PhaseRanged ranges costs run root

variable [Field K] [LinearOrder K]

theorem AllRanged.mono {ranges other : Ranges K m} {costs : Grid (Exact K) m n}
    (h : AllRanged ranges costs) (hwithin : ranges.Within other) : AllRanged other costs := by
  intro count
  obtain ⟨run, hrun, hranged, hphase⟩ := h count
  refine ⟨run, hrun, hranged.mono hwithin, fun root hroot => ?_⟩
  obtain ⟨hrounds, col, last, hlast, hsteps, hsum⟩ := hphase root hroot
  exact
    { rounds := fun round hround => (hrounds round hround).mono hwithin
      steps := ⟨col, last, hlast,
        fun step hstep => Set.image_mono hwithin.step (hsteps step hstep),
        Set.image_mono hwithin.step hsum⟩ }

variable {cost : Fin m → Fin n → K} {S : AddSubgroup K} {lo hi : K}

def Confined (S : AddSubgroup K) (cost : Fin m → Fin n → K) (run : Run (Exact K) m n) : Prop :=
  ∃ u v, run.potentials = Potentials.exact u v ∧
    LinearAssignment.Confined S cost run.matching u v ∧ run.workspace.Shows cost u v

theorem Confined.slack_lt_infinity {run : Run (Exact K) m n} (h : Confined S cost run)
    (i : Fin m) (j : Fin n) :
    run.potentials.slack (Grid.exact cost) i j < Scalar.infinity := by
  obtain ⟨u, v, hpotentials, -⟩ := h
  rw [hpotentials]
  exact Potentials.slack_exact_lt_infinity u v cost i j

theorem confined_start (hmn : m ≤ n) (hmem : ∀ i j, cost i j ∈ S) :
    Confined S cost (start (Grid.exact cost)) := by
  obtain ⟨u, v, hpotentials, hcert⟩ := certificate_initial cost hmn
  have hlowest (i : Fin m) : ∃ j, cost i j = u i := by
    obtain ⟨lowest, hrow, ⟨j, hj⟩, -⟩ := initial_exact cost (Nat.lt_of_lt_of_le i.pos hmn) i
    rw [hpotentials, Potentials.row_exact] at hrow
    cases hrow
    exact ⟨j, hj⟩
  refine ⟨u, v, hpotentials, ?_, fun j => .inl (Workspace.slack_fresh j)⟩
  exact
    { toCertificate := hcert
      row_ge := fun i => (hlowest i).imp fun j hj => hj.le
      row_le := fun i => (hlowest i).imp fun j hj => hj.ge
      row_mem := fun i => by
        obtain ⟨j, hj⟩ := hlowest i
        exact hj ▸ hmem i j
      col_mem := fun j => by
        rw [hcert.free j (Matching.rowOf_empty j)]
        exact S.zero_mem }

variable [IsStrictOrderedRing K]

theorem Confined.exists_last {run : Run (Exact K) m n} {root : Fin m}
    {search : Search (Exact K) m n} {path : List (Fin m × Fin n)}
    (h : LinearAssignment.Confined S cost run.matching u v)
    (hpotentials : run.potentials = Potentials.exact u v) (hm : run.matching.Consistent)
    (hmem : ∀ i j, cost i j ∈ S)
    (hphase : Phase (Grid.exact cost) run root col search path) :
    ∃ u' v', search.potentials = Potentials.exact u' v' ∧
      LinearAssignment.Confined S cost run.matching u' v' ∧
      search.toWorkspace.Shows cost u' v' ∧
      Scalar.sum search.steps.reverse = .finite (u' root - u root) ∧ u root ≤ u' root := by
  have hsearched := hphase.searched
  rw [hpotentials] at hsearched
  obtain ⟨round, hround, -, rfl, -⟩ := Search.exists_last_round hsearched
  obtain ⟨u', u'', v', v'', hconfined⟩ :=
    Search.exists_confined_of_mem_history hm hphase.leads.root_free hphase.free hmem h
      (List.mem_of_getLast? hround)
  exact ⟨u'', v'', hconfined.after_eq, hconfined.after, hconfined.after_shows, hconfined.sum_eq,
    hconfined.row_le root⟩

theorem Confined.after {run : Run (Exact K) m n} {root : Fin m} {search : Search (Exact K) m n}
    {path : List (Fin m × Fin n)} (h : Confined S cost run) (hm : run.matching.Consistent)
    (hmem : ∀ i j, cost i j ∈ S)
    (hphase : Phase (Grid.exact cost) run root col search path) :
    Confined S cost (run.after root col search path) := by
  obtain ⟨u, v, hpotentials, hconfined, -⟩ := h
  obtain ⟨u', v', hpotentials', hconfined', hshows, -, -⟩ :=
    Confined.exists_last hconfined hpotentials hm hmem hphase
  obtain ⟨u'', v'', hpotentials'', hcert, -⟩ :=
    hphase.exists_certificate hm hpotentials hconfined.toCertificate
  obtain ⟨rfl, rfl⟩ := Potentials.exact_inj (hpotentials'.symm.trans hpotentials'')
  exact ⟨u', v', hpotentials', { hconfined' with toCertificate := hcert }, hshows⟩

theorem Confined.ranged {run : Run (Exact K) m n} (h : Confined S cost run)
    (hm : run.matching.Consistent) (hle : lo ≤ hi) (hcost : ∀ i j, cost i j ∈ Set.Icc lo hi)
    (hmem : ∀ i j, cost i j ∈ S) :
    Ranged ((Ranges.between cost lo hi).inter S) (Grid.exact cost) run.potentials
      run.workspace := by
  obtain ⟨u, v, hpotentials, hconfined, hshows⟩ := h
  exact hconfined.ranged hm hle hcost hmem hpotentials hshows

theorem Confined.phaseRanged {run : Run (Exact K) m n} {root : Fin m} (h : Confined S cost run)
    (hm : run.matching.Consistent) (hmn : m ≤ n) (hle : lo ≤ hi)
    (hcost : ∀ i j, cost i j ∈ Set.Icc lo hi) (hmem : ∀ i j, cost i j ∈ S)
    (hroot : run.matching.columnOf root = none) :
    PhaseRanged ((Ranges.between cost lo hi).inter S) (Grid.exact cost) run root := by
  obtain ⟨col, search, path, hphase⟩ :=
    Run.exists_phase hm hmn hroot (h.slack_lt_infinity root)
  obtain ⟨u, v, hpotentials, hconfined, -⟩ := h
  obtain ⟨u', v', -, hconfined', -, hsum, hrise⟩ :=
    Confined.exists_last hconfined hpotentials hm hmem hphase
  have hrounds : ∀ round ∈ Search.history (Grid.exact cost) run.matching run.workspace
      run.potentials root,
      round.Ranged ((Ranges.between cost lo hi).inter S) (Grid.exact cost) := by
    intro round hround
    rw [hpotentials] at hround
    obtain ⟨_, _, _, _, hbetween⟩ :=
      Search.exists_confined_of_mem_history hm hroot hphase.free hmem hconfined hround
    exact hbetween.ranged hm hle hcost hmem
  refine ⟨hrounds, col, search, hphase.searched, fun step hstep => ?_, ?_⟩
  · -- A step that was written down is the step of some round.
    rw [← List.mem_reverse, Search.steps_of_run hphase.searched] at hstep
    obtain ⟨round, hround, rfl⟩ := List.mem_map.mp (List.mem_filter.mp hstep).1
    exact (hrounds round hround).step
  · rw [hsum]
    exact ⟨_, ⟨hconfined'.sub_mem_Icc hconfined hcost hrise,
      S.sub_mem (hconfined'.row_mem root) (hconfined.row_mem root)⟩, rfl⟩

theorem allRanged_inter (hmn : m ≤ n) (hle : lo ≤ hi) (hcost : ∀ i j, cost i j ∈ Set.Icc lo hi)
    (hmem : ∀ i j, cost i j ∈ S) :
    AllRanged ((Ranges.between cost lo hi).inter S) (Grid.exact cost) := by
  have hconfined (count : Nat) (hcount : count ≤ m) : ∃ run,
      phases (Grid.exact cost) count (start (Grid.exact cost)) = .ok run ∧
        Progress count run ∧ Confined S cost run := by
    refine exists_phases (fun _ run => Confined S cost run) hmn (confined_start hmn hmem) ?_ ?_
      hcount
    · exact fun _ _ _ _ _ h => h.slack_lt_infinity _
    · exact fun _ _ _ _ _ _ hprogress h hphase => h.after hprogress.consistent hmem hphase
  intro count
  rcases Nat.le_total count m with hcount | hcount
  · obtain ⟨run, hrun, hprogress, h⟩ := hconfined count hcount
    refine ⟨run, hrun, h.ranged hprogress.consistent hle hcost hmem, fun root hroot => ?_⟩
    exact h.phaseRanged hprogress.consistent hmn hle hcost hmem
      (Matching.head_freeRows_eq_some.mp hroot).1
  · obtain ⟨run, hrun, hprogress, h⟩ := hconfined m le_rfl
    refine ⟨run, hprogress.phases_of_le hrun hcount,
      h.ranged hprogress.consistent hle hcost hmem, fun root hroot => ?_⟩
    rw [hprogress.freeRows_nil] at hroot
    cases hroot

end LinearAssignment.Run
