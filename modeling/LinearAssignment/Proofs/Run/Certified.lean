import LinearAssignment.Proofs.Run.Phases
import LinearAssignment.Proofs.Search.Slack

/-! A run in exact arithmetic. Each phase hands a certificate on from the matching that it found to
the one that it leaves, so at the end the potentials certify a complete matching. -/
namespace LinearAssignment.Run

variable [Field K] [LinearOrder K] {cost : Fin m → Fin n → K}

def Certified (cost : Fin m → Fin n → K) (run : Run (Exact K) m n) : Prop :=
  ∃ u v, run.potentials = Potentials.exact u v ∧ Certificate cost run.matching u v

theorem Certified.slack_lt_infinity {run : Run (Exact K) m n} (h : Certified cost run)
    (i : Fin m) (j : Fin n) :
    run.potentials.slack (Grid.exact cost) i j < Scalar.infinity := by
  obtain ⟨u, v, hpotentials, -⟩ := h
  rw [hpotentials]
  exact Potentials.slack_exact_lt_infinity u v cost i j

variable [IsStrictOrderedRing K]

theorem Phase.exists_aligned {run : Run (Exact K) m n} {root : Fin m}
    {search : Search (Exact K) m n} {path : List (Fin m × Fin n)}
    (hphase : Phase (Grid.exact cost) run root col search path) (hm : run.matching.Consistent)
    (hpotentials : run.potentials = Potentials.exact u v)
    (hcert : Certificate cost run.matching u v) :
    Search.Gained run.potentials search ∧
      ∃ u' v', Search.Aligned cost search u' v' ∧ Certificate cost run.matching u' v' ∧
        Search.Moved search.toWorkspace u u' v v' := by
  have hrun := hphase.searched
  rw [hpotentials] at hrun ⊢
  exact Search.exists_aligned_of_run hm hphase.leads.root_free hcert hrun

theorem Phase.exists_certificate {run : Run (Exact K) m n} {root : Fin m}
    {search : Search (Exact K) m n} {path : List (Fin m × Fin n)}
    (hphase : Phase (Grid.exact cost) run root col search path) (hm : run.matching.Consistent)
    (hpotentials : run.potentials = Potentials.exact u v)
    (hcert : Certificate cost run.matching u v) :
    ∃ u' v', search.potentials = Potentials.exact u' v' ∧
      Certificate cost (run.matching.pairAll path).countOne u' v' ∧
        Search.Moved search.toWorkspace u u' v v' := by
  obtain ⟨-, u', v', haligned, hcert', hmoved⟩ := hphase.exists_aligned hm hpotentials hcert
  refine ⟨u', v', haligned.potentials_eq, ⟨hcert'.feasible, ?_, hcert'.nonpos, ?_⟩, hmoved⟩
  · intro i j hij
    -- Pairs on the path are tight after the search, and the others were matched before.
    rcases hphase.leads.columnOf_pairAll.mp hij with hpath | ⟨-, hold⟩
    · obtain ⟨parent, -, hparent, htight⟩ := haligned.tight j (hphase.visited _ hpath)
      have hrow := (Search.parentRow_of_get hparent).symm.trans
        (hphase.leads.parentRow_of_mem hpath)
      cases hrow
      exact htight
    · exact hcert'.tight i j hold
  · intro j hj
    exact hcert'.free j ((hphase.leads.rowOf_pairAll_eq_none hm).mp hj).1

theorem Certified.after {run : Run (Exact K) m n} {root : Fin m} {search : Search (Exact K) m n}
    {path : List (Fin m × Fin n)} (h : Certified cost run) (hm : run.matching.Consistent)
    (hphase : Phase (Grid.exact cost) run root col search path) :
    Certified cost (run.after root col search path) := by
  obtain ⟨u, v, hpotentials, hcert⟩ := h
  obtain ⟨u', v', hpotentials', hcert', -⟩ := hphase.exists_certificate hm hpotentials hcert
  exact ⟨u', v', hpotentials', hcert'⟩

/-- After any number of phases, as long as rows are left, the lowest rows are matched and the
potentials certify it. -/
theorem exists_certified (cost : Fin m → Fin n → K) (hmn : m ≤ n) (hcount : count ≤ m) :
    ∃ run, phases (Grid.exact cost) count (start (Grid.exact cost)) = .ok run ∧
      Progress count run ∧ Certified cost run := by
  refine exists_phases (fun _ run => Certified cost run) hmn ?_ ?_ ?_ hcount
  · exact certificate_initial cost hmn
  · exact fun _ _ _ _ _ hcertified => hcertified.slack_lt_infinity _
  · exact fun _ _ _ _ _ _ hprogress hcertified hphase =>
      hcertified.after hprogress.consistent hphase

theorem slacksBelowInfinity_exact (cost : Fin m → Fin n → K) (hmn : m ≤ n) :
    SlacksBelowInfinity (Grid.exact cost) := by
  intro count run root hrun hroot j
  rcases Nat.le_total count m with hle | hle
  · obtain ⟨run', hrun', -, hcertified⟩ := exists_certified cost hmn hle
    cases hrun.symm.trans hrun'
    exact hcertified.slack_lt_infinity root j
  · obtain ⟨run', hrun', hprogress, -⟩ := exists_certified cost hmn (le_refl m)
    cases hrun.symm.trans (hprogress.phases_of_le hrun' hle)
    rw [hprogress.freeRows_nil] at hroot
    cases hroot

end LinearAssignment.Run
