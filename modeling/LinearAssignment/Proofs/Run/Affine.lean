import LinearAssignment.Proofs.Run.Certified
import LinearAssignment.Proofs.Run.Embedding

/-! Costs that are multiplied by a positive factor, with a number of its own added to each row. All
slacks are multiplied by the factor and nothing else changes, so a run takes the same columns, ties
included; only the potentials of the rows notice what was added. -/
namespace LinearAssignment

variable [Field K] [LinearOrder K] [IsStrictOrderedRing K] {cost cost' : Fin m → Fin n → K}
  {factor : K} {offset : Fin m → K}

def Embedding.affine (hfactor : 0 < factor)
    (h : ∀ i j, cost' i j = factor * cost i j + offset i) :
    Embedding (Grid.exact cost) (Grid.exact cost') where
  le := le_refl m
  level i := Exact.map fun x => factor * x + offset i
  gap := Exact.map fun x => factor * x
  entry_eq i j := by
    rw [Fin.castLE_rfl, Grid.entry_exact, Grid.entry_exact]
    exact congrArg Exact.finite (h i j)
  level_lt i := Exact.map_lt_map fun x y hxy =>
    add_lt_add_left (mul_lt_mul_of_pos_left hxy hfactor) (offset i)
  level_infinity _ := rfl
  level_add i := Exact.map_map₂ fun x step => by ring
  level_sub i x y := (Exact.map_map₂ (fun x y => by ring) x y).symm
  gap_zero := congrArg Exact.finite (mul_zero factor)
  gap_infinity := rfl
  gap_sub := Exact.map_map₂ fun x y => mul_sub factor x y
  gap_lt := Exact.map_lt_map fun _ _ hxy => mul_lt_mul_of_pos_left hxy hfactor
  gap_le := Exact.map_le_map fun _ _ hxy => mul_lt_mul_of_pos_left hxy hfactor

namespace Run

/-- Two runs with the same matching and the same counters, and potentials that differ as the costs
do: each row by its number, and every gap by the factor. -/
structure Rescaled (factor : K) (offset : Fin m → K) (run other : Run (Exact K) m n) : Prop where
  matching_eq : other.matching = run.matching
  tally_eq : other.tally = run.tally
  potentials_eq : ∃ u v, run.potentials = Potentials.exact u v ∧
    other.potentials =
      Potentials.exact (fun i => factor * u i + offset i) fun j => factor * v j

theorem rescaled_embed (hfactor : 0 < factor)
    (h : ∀ i j, cost' i j = factor * cost i j + offset i) {run : Run (Exact K) m n}
    (hpotentials : run.potentials = Potentials.exact u v) :
    Rescaled factor offset run (run.embed (Embedding.affine hfactor h)) where
  matching_eq := Matching.embed_refl run.matching
  tally_eq := rfl
  potentials_eq := by
    refine ⟨u, v, hpotentials, ?_⟩
    rw [embed, hpotentials]
    apply Potentials.ext
    · intro i
      have hrow := Potentials.row_embed (Embedding.affine hfactor h) (Potentials.exact u v) i
      rw [Fin.castLE_rfl] at hrow
      rw [Potentials.row_exact] at hrow ⊢
      exact hrow
    · intro j
      rw [Potentials.col_embed, Potentials.col_exact, Potentials.col_exact]
      rfl

theorem exists_complete_rescaled (hmn : m ≤ n) (hfactor : 0 < factor)
    (h : ∀ i j, cost' i j = factor * cost i j + offset i) :
    ∃ run other, complete (Grid.exact cost) (start (Grid.exact cost)) = .ok run ∧
      complete (Grid.exact cost') (start (Grid.exact cost')) = .ok other ∧
        Rescaled factor offset run other := by
  obtain ⟨run, hrun, -, u, v, hpotentials, -⟩ := exists_certified cost hmn (le_refl m)
  obtain ⟨run', hrun', -, hother⟩ := exists_phases_embed (Embedding.affine hfactor h) hmn
    (slacksBelowInfinity_exact cost hmn) (le_refl m)
  cases hrun.symm.trans hrun'
  exact ⟨run, _, hrun, hother, rescaled_embed hfactor h hpotentials⟩

end Run
end LinearAssignment
