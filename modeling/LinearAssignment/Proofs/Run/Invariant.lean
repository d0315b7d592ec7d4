import LinearAssignment.Proofs.Run.Certified

/-! The primal-dual invariant of a run, and what one phase makes of it. Nothing is said about how
the state came about: any potentials and any matching that have the invariant will do, and whatever
an earlier search left in the workspace. -/
namespace LinearAssignment.Run

variable [Field K] [LinearOrder K] {cost : Fin m → Fin n → K} {u : Fin m → K} {v : Fin n → K}

/-- No slack is below zero, and a matched pair has none. A column is not above zero, and at zero
while it is free. The two sides of the matching agree, and its size counts both of them. -/
structure Invariant (cost : Fin m → Fin n → K) (u : Fin m → K) (v : Fin n → K)
    (matching : Matching m n) : Prop where
  slack_nonneg : ∀ i j, 0 ≤ (Potentials.exact u v).slack (Grid.exact cost) i j
  slack_eq_zero : ∀ i j, matching.columnOf i = some j →
    (Potentials.exact u v).slack (Grid.exact cost) i j = 0
  nonpos : ∀ j, v j ≤ 0
  free : ∀ j, matching.rowOf j = none → v j = 0
  consistent : matching.Consistent
  size_eq_rows : matching.size = matching.matchedRows.card
  size_eq_cols : matching.size = matching.matchedCols.card

theorem slack_eq_zero_iff (i : Fin m) (j : Fin n) :
    (Potentials.exact u v).slack (Grid.exact cost) i j = 0 ↔ u i + v j = cost i j := by
  rw [Potentials.slack_exact]
  change Exact.finite _ = Exact.finite 0 ↔ u i + v j = cost i j
  rw [Exact.finite.injEq, sub_sub, sub_eq_zero, eq_comm]

variable [IsStrictOrderedRing K] {matching : Matching m n}

theorem zero_le_slack_iff (i : Fin m) (j : Fin n) :
    0 ≤ (Potentials.exact u v).slack (Grid.exact cost) i j ↔ u i + v j ≤ cost i j := by
  rw [Potentials.slack_exact]
  change 0 ≤ cost i j - u i - v j ↔ u i + v j ≤ cost i j
  rw [sub_sub, sub_nonneg]

theorem invariant_iff :
    Invariant cost u v matching ↔
      Certificate cost matching u v ∧ matching.Consistent ∧ matching.Counts := by
  constructor
  · intro h
    exact ⟨⟨fun i j => (zero_le_slack_iff i j).mp (h.slack_nonneg i j),
      fun i j hij => (slack_eq_zero_iff i j).mp (h.slack_eq_zero i j hij), h.nonpos, h.free⟩,
      h.consistent, h.size_eq_rows.trans h.consistent.length_pairs_eq_card_rows.symm⟩
  · rintro ⟨hcert, hm, hcounts⟩
    exact
      { slack_nonneg := fun i j => (zero_le_slack_iff i j).mpr (hcert.feasible i j)
        slack_eq_zero := fun i j hij => (slack_eq_zero_iff i j).mpr (hcert.tight i j hij)
        nonpos := hcert.nonpos
        free := hcert.free
        consistent := hm
        size_eq_rows := hcounts.trans hm.length_pairs_eq_card_rows
        size_eq_cols := hcounts.trans hm.length_pairs_eq_card_cols }

/-- A phase from a free row ends, and the invariant holds again. The root and one more column are
matched and nothing is unmatched; no row has gone down and no column up, and outside the tree of
the search nothing has moved. -/
theorem exists_phase_invariant {run : Run (Exact K) m n} {root : Fin m}
    (h : Invariant cost u v run.matching) (hmn : m ≤ n)
    (hpotentials : run.potentials = Potentials.exact u v)
    (hroot : run.matching.columnOf root = none) :
    ∃ next u' v', run.phase (Grid.exact cost) root = .ok next ∧
      next.potentials = Potentials.exact u' v' ∧ Invariant cost u' v' next.matching ∧
      next.matching.matchedRows = insert root run.matching.matchedRows ∧
      (∃ col ∉ run.matching.matchedCols,
        next.matching.matchedCols = insert col run.matching.matchedCols) ∧
      Search.Moved next.workspace u u' v v' := by
  obtain ⟨hcert, hm, hcounts⟩ := invariant_iff.mp h
  have hslack (j : Fin n) :
      run.potentials.slack (Grid.exact cost) root j < Scalar.infinity := by
    rw [hpotentials]
    exact Potentials.slack_exact_lt_infinity u v cost root j
  obtain ⟨col, search, path, hphase⟩ := Run.exists_phase hm hmn hroot hslack
  obtain ⟨u', v', hpotentials', hcert', hmoved⟩ := hphase.exists_certificate hm hpotentials hcert
  have hm' := hphase.leads.consistent_pairAll hm hphase.free
  have hcounts' := hphase.leads.counts_countOne hm hphase.free hcounts
  refine ⟨run.after root col search path, u', v', hphase.phase_eq, hpotentials',
    invariant_iff.mpr ⟨hcert', hm', hcounts'⟩, hphase.leads.matchedRows_pairAll, ⟨col, ?_, ?_⟩,
    hmoved⟩
  · rw [Matching.mem_matchedCols, not_not]
    exact hphase.free
  · exact hphase.leads.matchedCols_pairAll hm

theorem exists_phase_invariant_two_by_two :
    let cost : Fin 2 → Fin 2 → ℚ := ![![1, 4], ![2, 8]]
    let u : Fin 2 → ℚ := ![2, -5]
    let v : Fin 2 → ℚ := ![-1, 0]
    let run : Run (Exact ℚ) 2 2 :=
      { Run.start (Grid.exact cost) with
        potentials := Potentials.exact u v
        matching := ⟨#v[some 0, none], #v[some 0, none], 1⟩ }
    Invariant cost u v run.matching ∧ run.matching.columnOf 1 = none ∧
      ∃ next u' v', run.phase (Grid.exact cost) 1 = .ok next ∧
        next.potentials = Potentials.exact u' v' ∧ Invariant cost u' v' next.matching ∧
        next.matching.matchedRows = insert 1 run.matching.matchedRows ∧
        (∃ col ∉ run.matching.matchedCols,
          next.matching.matchedCols = insert col run.matching.matchedCols) ∧
        Search.Moved next.workspace u u' v v' := by
  intro cost u v run
  have hm : run.matching.Consistent := by unfold Matching.Consistent; decide
  have hcert : Certificate cost run.matching u v := by
    constructor <;> decide +kernel
  have h := invariant_iff.mpr ⟨hcert, hm, rfl⟩
  exact ⟨h, rfl, exists_phase_invariant h (le_refl 2) rfl rfl⟩

end LinearAssignment.Run
