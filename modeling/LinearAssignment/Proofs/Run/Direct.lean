import LinearAssignment.Proofs.Run.Work

/-! Runs that every row gets its first choice in. As long as the first of the cheapest columns of
each root is free, every phase takes it and looks at nothing else, so the potentials stay where they
were at the start. A phase that finds it taken scans two columns at least, and the counter of the
columns scanned is ahead of the phases from then on. -/
namespace LinearAssignment.Run

variable [Field K] [LinearOrder K]

/-- Each row below the count has its first choice, found at once and without a step. -/
structure Direct (cost : Fin m → Fin n → K) (first : Fin m → Fin n) (count : Nat)
    (run : Run (Exact K) m n) : Prop where
  potentials_eq : run.potentials = Potentials.initial (Grid.exact cost)
  updates_eq : run.tally.dualUpdates = 0
  scanned_eq : run.tally.columnsScanned = count
  columnOf_eq : ∀ i, i.val < count → run.matching.columnOf i = some (first i)

/-- No phase scans less than one column. If none has scanned more, or if first choices never meet,
all of them were direct. -/
structure Greedy (cost : Fin m → Fin n → K) (first : Fin m → Fin n) (count : Nat)
    (run : Run (Exact K) m n) : Prop where
  scanned_ge : count ≤ run.tally.columnsScanned
  direct : run.tally.columnsScanned = count ∨ Function.Injective first →
    Direct cost first count run

variable {cost : Fin m → Fin n → K} {first : Fin m → Fin n}

theorem greedy_start (cost : Fin m → Fin n → K) (first : Fin m → Fin n) :
    Greedy cost first 0 (start (Grid.exact cost)) where
  scanned_ge := Nat.le_refl 0
  direct _ :=
    { potentials_eq := rfl
      updates_eq := rfl
      scanned_eq := rfl
      columnOf_eq := fun _ hi => absurd hi (Nat.not_lt_zero _) }

theorem Direct.injective {run : Run (Exact K) m n} (h : Direct cost first m run)
    (hm : run.matching.Consistent) : Function.Injective first := by
  intro i k hik
  have hi := (hm i _).mp (h.columnOf_eq i i.isLt)
  have hk := (hm k _).mp (h.columnOf_eq k k.isLt)
  rw [hik, hk] at hi
  exact (Option.some.inj hi).symm

theorem Greedy.scanned_eq_iff {run : Run (Exact K) m n} (h : Greedy cost first m run)
    (hm : run.matching.Consistent) :
    run.tally.columnsScanned = m ↔ Function.Injective first :=
  ⟨fun hscanned => (h.direct (.inl hscanned)).injective hm,
    fun hinjective => (h.direct (.inr hinjective)).scanned_eq⟩

variable [IsStrictOrderedRing K]

/-- A phase after direct ones is direct too, or finds that its first choice is the one of an earlier
row and scans a second column. -/
theorem Direct.after {run : Run (Exact K) m n} {hcount : count < m}
    {search : Search (Exact K) m n} {path : List (Fin m × Fin n)}
    (h : Direct cost first count run) (hprogress : Progress count run)
    (hphase : Phase (Grid.exact cost) run ⟨count, hcount⟩ col search path) (hmn : m ≤ n)
    (hfirst : ∀ i, FirstCheapest cost i (first i)) :
    Direct cost first (count + 1) (run.after ⟨count, hcount⟩ col search path) ∨
      ¬Function.Injective first ∧ 2 ≤ search.cols.length := by
  have hrun := hphase.searched
  rw [h.potentials_eq] at hrun
  rcases Search.immediate_or_longer hmn hrun (hfirst ⟨count, hcount⟩) with
    ⟨-, rfl, himmediate⟩ | ⟨howned, htwo⟩
  · refine .inl ⟨himmediate.potentials_eq, ?_, ?_, ?_⟩
    · rw [hphase.dualUpdates_after, h.updates_eq, himmediate.steps_eq, List.length_nil]
    · rw [hphase.columnsScanned_after, h.scanned_eq, himmediate.cols_eq, List.length_singleton]
    · intro i hi
      rw [hphase.columnOf_after himmediate.parent_eq]
      split
      · rename_i heq
        rw [heq]
      · rename_i hne
        exact h.columnOf_eq i (Nat.lt_of_le_of_ne (Nat.le_of_lt_succ hi) fun heq =>
          hne (Fin.ext heq))
  · refine .inr ⟨fun hinjective => ?_, htwo⟩
    obtain ⟨owner, howner⟩ := Option.ne_none_iff_exists'.mp howned
    have hcolumn := (hprogress.consistent owner _).mpr howner
    have hlt : owner.val < count := by
      rw [← Nat.not_le, ← hprogress.free_iff, hcolumn]
      exact Option.some_ne_none _
    rw [h.columnOf_eq owner hlt] at hcolumn
    obtain rfl := hinjective (Option.some.inj hcolumn)
    exact absurd hlt (Nat.lt_irrefl count)

theorem Greedy.after {run : Run (Exact K) m n} {hcount : count < m}
    {search : Search (Exact K) m n} {path : List (Fin m × Fin n)}
    (h : Greedy cost first count run) (hprogress : Progress count run)
    (hphase : Phase (Grid.exact cost) run ⟨count, hcount⟩ col search path) (hmn : m ≤ n)
    (hfirst : ∀ i, FirstCheapest cost i (first i)) :
    Greedy cost first (count + 1) (run.after ⟨count, hcount⟩ col search path) := by
  have hone := (hphase.scans hprogress).1
  have hge := h.scanned_ge
  refine ⟨hphase.columnsScanned_after ▸ Nat.add_le_add hge hone, fun hcase => ?_⟩
  -- What the phase scans comes on top, so there was no surplus before if there is none now.
  rw [hphase.columnsScanned_after] at hcase
  have hdirect : Direct cost first count run := by
    refine h.direct (hcase.imp_left fun heq => ?_)
    omega
  rcases hdirect.after hprogress hphase hmn hfirst with hafter | ⟨hmeet, htwo⟩
  · exact hafter
  · rcases hcase with heq | hinjective
    · omega
    · exact absurd hinjective hmeet

theorem exists_greedy (hmn : m ≤ n) (hfirst : ∀ i, FirstCheapest cost i (first i))
    (hcount : count ≤ m) :
    ∃ run, phases (Grid.exact cost) count (start (Grid.exact cost)) = .ok run ∧
      Progress count run ∧ Greedy cost first count run := by
  refine exists_phases (Greedy cost first) hmn (greedy_start cost first) ?_ ?_ hcount
  · exact fun _ _ hlt hrun hprogress _ =>
      (slacksBelowInfinity_exact cost hmn).slack_lt hlt hrun hprogress
  · exact fun _ _ _ _ _ _ hprogress hgreedy hphase =>
      hgreedy.after hprogress hphase hmn hfirst

end LinearAssignment.Run
