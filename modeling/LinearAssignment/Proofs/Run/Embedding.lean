import LinearAssignment.Proofs.Run.Phases
import LinearAssignment.Proofs.Search.Embedding

/-! A run in an embedded table. Rows are taken from the top, and a phase looks at no row below its
root; so as long as the embedded rows last, a run of the whole table is the embedded run, and the
rows below stay free and at their initial potentials. -/
namespace LinearAssignment.Run

variable [Scalar α] [Scalar β] {costs : Grid α m n} {costs' : Grid β k n}

def embed (e : Embedding costs costs') (run : Run α m n) : Run β k n where
  potentials := run.potentials.embed e
  matching := run.matching.embed e.le
  tally := run.tally
  trace := run.trace.map (Event.map e.gap)
  workspace := run.workspace.embed e

theorem start_embed (e : Embedding costs costs') : (start costs).embed e = start costs' := by
  simp only [embed, start, Potentials.initial_embed, Matching.empty_embed, Workspace.fresh_embed,
    List.map_nil]

theorem phaseTally_embed (e : Embedding costs costs') (search : Search α m n) :
    phaseTally (search.embed e) = phaseTally search := rfl

theorem phaseTrace_embed (e : Embedding costs costs') (root : Fin m) (col : Fin n)
    (search : Search α m n) :
    phaseTrace (root.castLE e.le) col (search.embed e) =
      (phaseTrace root col search).map (Event.map e.gap) := by
  simp [phaseTrace, Event.map]

theorem phase_eq_ok {run next : Run α m n} {root : Fin m} :
    run.phase costs root = .ok next ↔
      ∃ col search matching,
        Search.run costs run.matching run.workspace run.potentials root = .ok (col, search) ∧
        run.matching.augment root.val col.val search.parents.toArray = .ok matching ∧
        next =
          { potentials := search.potentials
            matching
            tally := run.tally.add (phaseTally search)
            trace := run.trace ++ phaseTrace root col search
            workspace := search.toWorkspace } := by
  constructor
  · intro hphase
    cases hsearch : Search.run costs run.matching run.workspace run.potentials root with
    | error fault => simp [phase, hsearch, bind, Except.bind] at hphase
    | ok found =>
      obtain ⟨col, search⟩ := found
      cases haugment : run.matching.augment root.val col.val search.parents.toArray with
      | error fault => simp [phase, hsearch, haugment, bind, Except.bind] at hphase
      | ok matching =>
        simp only [phase, hsearch, haugment, bind, Except.bind, pure, Except.pure,
          Except.ok.injEq] at hphase
        exact ⟨col, search, matching, rfl, haugment, hphase.symm⟩
  · rintro ⟨col, search, matching, hsearch, haugment, rfl⟩
    simp only [phase, hsearch, haugment, bind, Except.bind, pure, Except.pure]

theorem phase_embed (e : Embedding costs costs') {run next : Run α m n} {root : Fin m}
    (hphase : run.phase costs root = .ok next) :
    (run.embed e).phase costs' (root.castLE e.le) = .ok (next.embed e) := by
  obtain ⟨col, search, matching, hsearch, haugment, rfl⟩ := phase_eq_ok.mp hphase
  refine phase_eq_ok.mpr ⟨col, search.embed e, matching.embed e.le, ?_, ?_, ?_⟩
  · rw [embed, Search.run_embed, hsearch]
    rfl
  · exact Matching.augment_embed e.le haugment
  · rw [phaseTally_embed, phaseTrace_embed]
    simp only [embed, List.map_append]
    rfl

theorem advance_embed (e : Embedding costs costs') {run next : Run α m n} {root : Fin m}
    (hroot : run.matching.freeRows.head? = some root) (hnext : run.advance costs = .ok next) :
    (run.embed e).advance costs' = .ok (next.embed e) := by
  have hroot' : (run.embed e).matching.freeRows.head? = some (root.castLE e.le) :=
    Matching.head_freeRows_embed e.le hroot
  rw [advance, hroot] at hnext
  rw [advance, hroot']
  exact phase_embed e hnext

/-- As many phases of the whole table as there are embedded rows are those of the embedded run. -/
theorem exists_phases_embed (e : Embedding costs costs') (hmn : m ≤ n)
    (hslack : SlacksBelowInfinity costs) (hcount : count ≤ m) :
    ∃ run, phases costs count (start costs) = .ok run ∧ Progress count run ∧
      phases costs' count (start costs') = .ok (run.embed e) := by
  refine exists_phases
    (fun count run => phases costs' count (start costs') = .ok (run.embed e)) hmn ?_ ?_ ?_ hcount
  · rw [start_embed e, phases_zero]
  · exact fun _ _ hlt hrun hprogress _ => hslack.slack_lt hlt hrun hprogress
  · intro count run hlt col search path hprogress hembed hphase
    have hnext := hprogress.advance_eq hlt hphase
    exact phases_succ_of_ok hembed (advance_embed e (hprogress.head_freeRows hlt) hnext)

end LinearAssignment.Run
