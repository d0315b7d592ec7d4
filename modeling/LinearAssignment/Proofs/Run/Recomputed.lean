import LinearAssignment.Proofs.Run.Phases
import LinearAssignment.Proofs.Search.Recomputed

/-! A phase that works out every slack again before each selection, and the phase that remembers
them. Nothing is asked of the potentials but that they are numbers: steps below zero are skipped by
both, slacks below zero are compared by both, and in the end both flip the same path. -/
namespace LinearAssignment.Run

/-- A phase of the run and the one without a workspace, step by step. -/
structure Recomputes [Field K] [LinearOrder K] (costs : Grid (Exact K) m n)
    (run next : Run (Exact K) m n) (root : Fin m) (col : Fin n)
    (plain : PlainSearch (Exact K) m n) : Prop where
  phase_eq : run.phase costs root = .ok next
  plain_eq : PlainSearch.phase costs run.matching run.potentials root =
    .ok (col, plain, next.matching)
  potentials_eq : next.potentials = plain.potentials
  trace_eq : next.trace = run.trace ++
    (plain.steps.map (Event.dualStep root.val) ++ [.matched root.val col.val plain.rows.length])
  history_eq :
    ((Search.history costs run.matching run.workspace run.potentials root).map fun round =>
      round.selection costs) = plain.made.reverse
  recomputed : ∀ round ∈ Search.history costs run.matching run.workspace run.potentials root,
    round.Recomputed costs
  last : ∃ round ∈
      (Search.history costs run.matching run.workspace run.potentials root).getLast?,
    round.col = col ∧ round.after.toWorkspace = next.workspace ∧
      round.after.potentials = next.potentials

variable [Field K] [LinearOrder K] [IsStrictOrderedRing K]

/-- From any potentials, feasible or not, a phase goes the same way as if it kept no slacks. -/
theorem exists_recomputes {run : Run (Exact K) m n} {root : Fin m} (cost : Fin m → Fin n → K)
    (u : Fin m → K) (v : Fin n → K) (hpotentials : run.potentials = Potentials.exact u v)
    (hm : run.matching.Consistent) (hmn : m ≤ n) (hroot : run.matching.columnOf root = none) :
    ∃ next col plain, Recomputes (Grid.exact cost) run next root col plain := by
  have hslack (j : Fin n) :
      run.potentials.slack (Grid.exact cost) root j < Scalar.infinity := by
    rw [hpotentials]
    exact Potentials.slack_exact_lt_infinity u v cost root j
  obtain ⟨col, search, path, hphase⟩ := Run.exists_phase hm hmn hroot hslack
  have hsearched := hphase.searched
  rw [hpotentials] at hsearched
  obtain ⟨plain, hgrow, hmirrors, hmade⟩ :=
    (Search.mirrors_start cost run.workspace u v root).grow rfl hsearched
  have hsteps : plain.steps = search.steps.reverse := by
    rw [Search.steps_of_run hsearched, PlainSearch.steps, hmade, List.map_append, List.map_map]
    rfl
  -- Both trees have the same parents where the path goes, and elsewhere no one looks.
  have hleads : run.matching.Path (Vector.ofFn plain.parent).toArray root col path := by
    refine hphase.leads.congr fun pair hpair => Search.parentRow_congr ?_
    rw [Vector.get_ofFn]
    exact hmirrors.parent_eq pair.2 (hphase.visited pair hpair)
  obtain ⟨round, hround, hcol, hafter, -⟩ := Search.exists_last_round hsearched
  refine ⟨run.after root col search path, col, plain, ?_⟩
  constructor
  case phase_eq => exact hphase.phase_eq
  case plain_eq =>
    rw [hpotentials]
    simp only [PlainSearch.phase, hgrow, hleads.augment_eq hphase.free, bind, Except.bind, pure,
      Except.pure]
    rfl
  case potentials_eq => exact hmirrors.potentials_eq.symm
  case trace_eq =>
    rw [hsteps, hmirrors.rows_eq, List.length_reverse]
    exact hphase.trace_after
  case history_eq =>
    rw [hpotentials, hmade]
    rfl
  case recomputed =>
    rw [hpotentials]
    exact fun round => Search.recomputed_of_mem_history
  case last =>
    rw [hpotentials]
    exact ⟨round, hround, hcol, by rw [hafter]; rfl, by rw [hafter]; rfl⟩

theorem exists_recomputes_two_by_three :
    let cost : Fin 2 → Fin 3 → ℚ := ![![1, 4, 6], ![2, 8, 9]]
    let u : Fin 2 → ℚ := ![3, 5]
    let v : Fin 3 → ℚ := ![2, -1, 7]
    let run : Run (Exact ℚ) 2 3 :=
      { Run.start (Grid.exact cost) with
        potentials := Potentials.exact u v
        matching := ⟨#v[none, some 2], #v[none, none, some 1], 1⟩ }
    run.matching.Consistent ∧ run.matching.columnOf 0 = none ∧
      ∃ next col plain, Recomputes (Grid.exact cost) run next 0 col plain := by
  intro cost u v run
  have hm : run.matching.Consistent := by unfold Matching.Consistent; decide
  exact ⟨hm, rfl, exists_recomputes cost u v rfl hm (by decide) rfl⟩

end LinearAssignment.Run
