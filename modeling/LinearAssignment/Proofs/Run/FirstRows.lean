import LinearAssignment.Proofs.Run.Certified
import LinearAssignment.Proofs.Run.Embedding

/-! A run that is stopped early. After some phases it has solved the table of as many rows from the
top, and has not looked at the rows below: what it holds of the first rows and of the columns is
what a complete run of the first rows alone ends with. -/
namespace LinearAssignment

def Grid.firstRows (hk : k ≤ m) (grid : Grid α m n) : Grid α k n :=
  ofFn fun i j => grid.entry (i.castLE hk) j

@[simp] theorem Grid.entry_firstRows (hk : k ≤ m) (grid : Grid α m n) (i : Fin k) (j : Fin n) :
    (grid.firstRows hk).entry i j = grid.entry (i.castLE hk) j := by
  simp [firstRows]

theorem Grid.firstRows_exact (hk : k ≤ m) (cost : Fin m → Fin n → K) :
    (Grid.exact cost).firstRows hk = Grid.exact fun i => cost (i.castLE hk) := by
  ext i j
  simp

variable [Scalar α]

def Embedding.firstRows (costs : Grid α m n) (hk : k ≤ m) :
    Embedding (costs.firstRows hk) costs where
  le := hk
  level _ := id
  gap := id
  entry_eq i j := (Grid.entry_firstRows hk costs i j).symm
  level_lt _ _ _ := Iff.rfl
  level_infinity _ := rfl
  level_add _ _ _ := rfl
  level_sub _ _ _ := rfl
  gap_zero := rfl
  gap_infinity := rfl
  gap_sub _ _ := rfl
  gap_lt _ _ := Iff.rfl
  gap_le _ _ := Iff.rfl

namespace Run

/-- The first rows and the columns are as a run of the first rows alone has left them, and the rows
below are free and at their initial potentials. -/
structure Extends (costs : Grid α m n) (hk : k ≤ m) (first : Run α k n) (run : Run α m n) :
    Prop where
  free_iff : ∀ row, run.matching.columnOf row = none ↔ k ≤ row.val
  row_initial : ∀ row, k ≤ row.val →
    run.potentials.row row = (Potentials.initial costs).row row
  row_eq : ∀ i : Fin k, run.potentials.row (i.castLE hk) = first.potentials.row i
  col_eq : ∀ j, run.potentials.col j = first.potentials.col j
  columnOf_eq : ∀ i : Fin k, run.matching.columnOf (i.castLE hk) = first.matching.columnOf i
  rowOf_eq : ∀ j, run.matching.rowOf j = (first.matching.rowOf j).map (Fin.castLE hk)
  tally_eq : run.tally = first.tally

theorem extends_embed (costs : Grid α m n) (hk : k ≤ m) {first : Run α k n}
    (h : Progress k first) :
    Extends costs hk first (first.embed (Embedding.firstRows costs hk)) where
  free_iff row := by
    obtain ⟨i, rfl⟩ | hrow := castLE_or_le hk row
    · have hcolumn := Matching.columnOf_embed hk first.matching i
      exact iff_of_false (hcolumn.trans_ne (h.columnOf_ne_none i)) (Nat.not_le.mpr i.isLt)
    · exact iff_of_true (Matching.columnOf_embed_of_le hk first.matching hrow) hrow
  row_initial row hrow :=
    Potentials.row_embed_of_le (Embedding.firstRows costs hk) first.potentials hrow
  row_eq i := Potentials.row_embed (Embedding.firstRows costs hk) first.potentials i
  col_eq j := Potentials.col_embed (Embedding.firstRows costs hk) first.potentials j
  columnOf_eq i := Matching.columnOf_embed hk first.matching i
  rowOf_eq j := Matching.rowOf_embed hk first.matching j
  tally_eq := rfl

variable [Field K] [LinearOrder K] {cost : Fin m → Fin n → K}

theorem Extends.isLeast {run : Run (Exact K) m n} {first : Run (Exact K) k n} {hk : k ≤ m}
    (h : Extends (Grid.exact cost) hk first run) (hmn : m ≤ n)
    (hpotentials : run.potentials = Potentials.exact u v) {row : Fin m} (hrow : k ≤ row.val) :
    IsLeast (Set.range (cost row)) (u row) := by
  obtain ⟨lowest, hinitial, hleast⟩ := initial_exact cost (Nat.lt_of_lt_of_le row.pos hmn) row
  have hpotential := h.row_initial row hrow
  rw [hpotentials, hinitial, Potentials.row_exact] at hpotential
  cases hpotential
  exact hleast

variable [IsStrictOrderedRing K]

theorem exists_extends (cost : Fin m → Fin n → K) (hmn : m ≤ n) (hk : k ≤ m) :
    ∃ run first, phases (Grid.exact cost) k (start (Grid.exact cost)) = .ok run ∧
      complete ((Grid.exact cost).firstRows hk) (start ((Grid.exact cost).firstRows hk)) =
        .ok first ∧ Extends (Grid.exact cost) hk first run := by
  have hslack : SlacksBelowInfinity ((Grid.exact cost).firstRows hk) := by
    rw [Grid.firstRows_exact]
    exact slacksBelowInfinity_exact _ (hk.trans hmn)
  obtain ⟨first, hfirst, hprogress, hrun⟩ :=
    exists_phases_embed (Embedding.firstRows (Grid.exact cost) hk) (hk.trans hmn) hslack
      (le_refl k)
  exact ⟨_, first, hrun, hfirst, extends_embed _ hk hprogress⟩

theorem Extends.exists_cheapest {run : Run (Exact K) m n} {first : Run (Exact K) k n}
    {hk : k ≤ m} (h : Extends (Grid.exact cost) hk first run) (hmn : m ≤ n)
    (hfirst : complete ((Grid.exact cost).firstRows hk) (start ((Grid.exact cost).firstRows hk)) =
      .ok first) (hpotentials : run.potentials = Potentials.exact u v) :
    ∃ choice, IsCheapest (fun i : Fin k => cost (i.castLE hk)) choice ∧
      (∀ i : Fin k, run.matching.columnOf (i.castLE hk) = some (choice i)) ∧
        ∑ i : Fin k, u (i.castLE hk) + ∑ j, v j = ∑ i, cost (i.castLE hk) (choice i) := by
  rw [Grid.firstRows_exact] at hfirst
  obtain ⟨first', hfirst', hprogress, u', v', hpotentials', hcert⟩ :=
    exists_certified (fun i : Fin k => cost (i.castLE hk)) (hk.trans hmn) (le_refl k)
  cases hfirst.symm.trans hfirst'
  obtain ⟨choice, hcheapest, hchoice, htotal⟩ :=
    hcert.exists_cheapest hprogress.consistent hprogress.columnOf_ne_none
  have hu (i : Fin k) : u (i.castLE hk) = u' i := by
    have hrow := h.row_eq i
    rw [hpotentials, hpotentials', Potentials.row_exact, Potentials.row_exact] at hrow
    exact Exact.finite.inj hrow
  have hv (j : Fin n) : v j = v' j := by
    have hcol := h.col_eq j
    rw [hpotentials, hpotentials', Potentials.col_exact, Potentials.col_exact] at hcol
    exact Exact.finite.inj hcol
  refine ⟨choice, hcheapest, fun i => (h.columnOf_eq i).trans (hchoice i), ?_⟩
  simp only [hu, hv, htotal]

end Run
end LinearAssignment
