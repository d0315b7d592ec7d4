import LinearAssignment.Proofs.Run.Certified

/-! What an earlier search left in the workspace never shows. All that survives the restart are its
parents, and the first comparison overwrites every one of them, because the slacks of the root are
below the sentinel. So a run that is stopped may go on with any workspace. -/
namespace LinearAssignment

namespace Search

variable [Scalar α] {costs : Grid α m n} {potentials : Potentials α m n} {root : Fin m}

theorem relax_start (hslack : ∀ j, potentials.slack costs root j < Scalar.infinity)
    (workspace other : Workspace α m n) :
    (start workspace potentials root).relax costs root =
      (start other potentials root).relax costs root := by
  apply Search.ext
  case hslack =>
    intro j
    rw [slack_relax_start (hslack j), slack_relax_start (hslack j)]
  case hparent =>
    intro j
    rw [parent_relax_start (hslack j), parent_relax_start (hslack j)]
  all_goals rfl

theorem run_of_workspace (matching : Matching m n)
    (hslack : ∀ j, potentials.slack costs root j < Scalar.infinity) (hmn : m ≤ n)
    (workspace other : Workspace α m n) :
    run costs matching workspace potentials root = run costs matching other potentials root := by
  have hadvance : (start workspace potentials root).advance costs root =
      (start other potentials root).advance costs root := by
    rw [advance, advance, relax_start hslack workspace other]
  -- Rounds after the first one see a state that is the same already.
  obtain ⟨rounds, rfl⟩ : ∃ rounds, n = rounds + 1 :=
    Nat.exists_eq_succ_of_ne_zero (Nat.ne_zero_of_lt (Nat.lt_of_lt_of_le root.pos hmn))
  rw [run, run, grow, grow, hadvance]

end Search

namespace Run

def withWorkspace (run : Run α m n) (workspace : Workspace α m n) : Run α m n :=
  { run with workspace }

section
variable [Scalar α] {costs : Grid α m n} {run : Run α m n}

theorem phase_withWorkspace {root : Fin m}
    (hslack : ∀ j, run.potentials.slack costs root j < Scalar.infinity) (hmn : m ≤ n)
    (workspace : Workspace α m n) :
    (run.withWorkspace workspace).phase costs root = run.phase costs root := by
  simp only [phase, withWorkspace,
    Search.run_of_workspace run.matching hslack hmn workspace run.workspace]

theorem complete_withWorkspace {root : Fin m} (hroot : run.matching.freeRows.head? = some root)
    (hslack : ∀ j, run.potentials.slack costs root j < Scalar.infinity) (hmn : m ≤ n)
    (workspace : Workspace α m n) :
    complete costs (run.withWorkspace workspace) = complete costs run := by
  have hroot' : (run.withWorkspace workspace).matching.freeRows.head? = some root := hroot
  have hadvance : (run.withWorkspace workspace).advance costs = run.advance costs := by
    rw [advance, advance, hroot, hroot']
    exact phase_withWorkspace hslack hmn workspace
  obtain ⟨count, rfl⟩ : ∃ count, m = count + 1 :=
    Nat.exists_eq_succ_of_ne_zero (Nat.ne_zero_of_lt root.pos)
  rw [complete, complete, phases_succ, phases_succ, hadvance]

theorem complete_of_freeRows_nil (h : run.matching.freeRows = []) (workspace : Workspace α m n) :
    complete costs (run.withWorkspace workspace) = .ok (run.withWorkspace workspace) :=
  phases_of_freeRows_nil (by exact h) m

end

/-- A run that is stopped after some phases and goes on with the workspace ends as the run that is
never stopped, and running on from the end changes nothing. -/
def Resumes [Scalar α] (costs : Grid α m n) (count : Nat) (workspace : Workspace α m n) : Prop :=
  ∃ run last, phases costs count (start costs) = .ok run ∧
    complete costs (start costs) = .ok last ∧
    (∃ other, complete costs (run.withWorkspace workspace) = .ok (last.withWorkspace other)) ∧
    complete costs last = .ok last ∧
    complete costs (last.withWorkspace workspace) = .ok (last.withWorkspace workspace)

theorem SlacksBelowInfinity.resumes [Scalar α] {costs : Grid α m n}
    (hslack : SlacksBelowInfinity costs) (hmn : m ≤ n) (count : Nat)
    (workspace : Workspace α m n) : Resumes costs count workspace := by
  obtain ⟨last, hlast, hdone⟩ := exists_progress hmn hslack (le_refl m)
  have hnil := hdone.freeRows_nil
  have hend : complete costs last = .ok last := phases_of_freeRows_nil hnil m
  rcases Nat.lt_or_ge count m with hlt | hge
  · obtain ⟨run, hrun, hprogress⟩ := exists_progress hmn hslack hlt.le
    have hgoes : complete costs (run.withWorkspace workspace) = complete costs run :=
      complete_withWorkspace (hprogress.head_freeRows hlt) (hslack.slack_lt hlt hrun hprogress) hmn
        workspace
    have hthrough : complete costs run = .ok last :=
      calc complete costs run = (phases costs count (start costs) >>= phases costs m) := by
            rw [hrun]
            rfl
        _ = phases costs (count + m) (start costs) := (phases_add costs count m _).symm
        _ = .ok last := hdone.phases_of_le hlast (Nat.le_add_left m count)
    exact ⟨run, last, hrun, hlast, ⟨last.workspace, hgoes.trans hthrough⟩, hend,
      complete_of_freeRows_nil hnil workspace⟩
  · exact ⟨last, last, hdone.phases_of_le hlast hge, hlast,
      ⟨workspace, complete_of_freeRows_nil hnil workspace⟩, hend,
      complete_of_freeRows_nil hnil workspace⟩

/-- Whatever the numbers are, a phase does the same in every workspace. In exact arithmetic every
run may therefore be stopped and go on with a workspace of its own. -/
theorem workspace_never_shows :
    (∀ {α : Type} [Scalar α] {m n : Nat} (costs : Grid α m n) (run : Run α m n) (root : Fin m),
      run.matching.Consistent → m ≤ n → run.matching.columnOf root = none →
      (∀ j, run.potentials.slack costs root j < Scalar.infinity) →
      ∃ next, ∀ workspace, (run.withWorkspace workspace).phase costs root = .ok next) ∧
    ∀ {K : Type} [Field K] [LinearOrder K] [IsStrictOrderedRing K] {m n : Nat}
      (cost : Fin m → Fin n → K), m ≤ n → ∀ count workspace,
        Resumes (Grid.exact cost) count workspace := by
  constructor
  · intro α _ m n costs run root hm hmn hroot hslack
    obtain ⟨col, search, path, hphase⟩ := Run.exists_phase hm hmn hroot hslack
    refine ⟨run.after root col search path, fun workspace => ?_⟩
    rw [phase_withWorkspace hslack hmn workspace, hphase.phase_eq]
  · intro K _ _ _ m n cost hmn count workspace
    exact (slacksBelowInfinity_exact cost hmn).resumes hmn count workspace

theorem workspace_never_shows_two_by_three :
    let cost : Fin 2 → Fin 3 → ℚ := ![![1, 4, 6], ![2, 8, 9]]
    let leftover : Workspace (Exact ℚ) 2 3 :=
      ⟨#v[.finite (-5), .infinity, .finite 0], #v[9, 1, 7], #v[true, false, true], [1, 1], [2, 0]⟩
    let run : Run (Exact ℚ) 2 3 :=
      { Run.start (Grid.exact cost) with
        matching := ⟨#v[some 0, none], #v[some 0, none, none], 1⟩ }
    run.matching.Consistent ∧ run.matching.columnOf 1 = none ∧
      (∃ next, ∀ workspace, (run.withWorkspace workspace).phase (Grid.exact cost) 1 = .ok next) ∧
      Resumes (Grid.exact cost) 1 leftover := by
  intro cost leftover run
  have hm : run.matching.Consistent := by unfold Matching.Consistent; decide
  have hslack (j : Fin 3) :
      run.potentials.slack (Grid.exact cost) 1 j < Scalar.infinity := by
    obtain ⟨u, v, hpotentials, -⟩ := certificate_initial cost (by decide)
    rw [show run.potentials = Potentials.exact u v from hpotentials]
    exact Potentials.slack_exact_lt_infinity u v cost 1 j
  exact ⟨hm, rfl, workspace_never_shows.1 (Grid.exact cost) run 1 hm (by decide) rfl hslack,
    workspace_never_shows.2 cost (by decide) 1 leftover⟩

end Run
end LinearAssignment
