import LinearAssignment.Proofs.Run.Cast
import LinearAssignment.Proofs.Run.FirstRows
import LinearAssignment.Proofs.Solution.Certified

/-! The problem that the first rows of a standard form make up by themselves. Solving a problem
solves these smaller problems on the way, one more row with each phase. -/
namespace LinearAssignment

namespace Problem

variable [Field K] [LinearOrder K] (problem : Problem (Exact K) rows cols)

theorem isFinite_costs (i : Fin (min rows cols)) (j : Fin (max rows cols)) :
    Scalar.isFinite (problem.costs.entry i j) = true := by
  rw [costs_eq_exact, Grid.entry_exact, Exact.isFinite_finite]

theorem isFinite_firstRows (hk : k ≤ min rows cols) (i : Fin k) (j : Fin (max rows cols)) :
    Scalar.isFinite ((problem.costs.firstRows hk).entry i j) = true := by
  rw [Grid.entry_firstRows]
  exact problem.isFinite_costs _ j

def firstRows (hk : k ≤ min rows cols) : Problem (Exact K) k (max rows cols) where
  values := problem.costs.firstRows hk
  criterion := .minimize
  values_finite := problem.isFinite_firstRows hk
  gate_finite := fun _ hgate => nomatch hgate

theorem le_max_of_le_min (hk : k ≤ min rows cols) : k ≤ max rows cols := hk.trans min_le_max

theorem costs_firstRows (hk : k ≤ min rows cols) :
    (problem.firstRows hk).costs.cast (min_eq_left (le_max_of_le_min hk))
        (max_eq_right (le_max_of_le_min hk)) = problem.costs.firstRows hk := by
  ext i j
  have hwide : ¬max rows cols < k := Nat.not_lt.mpr (le_max_of_le_min hk)
  rw [Grid.entry_cast, entry_costs_of_admissibleIn _ rfl, costIn, valueIn, locate_of_not_lt hwide]
  rfl

variable [IsStrictOrderedRing K]

/-- After as many phases as there are first rows, the run has matched these rows and no others, and
is where solving them alone ends. So it holds a cheapest choice of columns for them, certified by
their potentials and those of the columns, while each row below keeps its least cost. -/
theorem exists_phases_firstRows (hk : k ≤ min rows cols) :
    ∃ run solution, Run.phases problem.costs k (Run.start problem.costs) = .ok run ∧
      (problem.firstRows hk).solve = .ok solution ∧
      Run.Extends problem.costs hk
        (solution.run.cast (min_eq_left (le_max_of_le_min hk))
          (max_eq_right (le_max_of_le_min hk))) run ∧
      ∃ u v choice, run.potentials = Potentials.exact u v ∧
        (∀ row, k ≤ row.val → IsLeast (Set.range (problem.cost row)) (u row)) ∧
        (∀ i : Fin k, run.matching.columnOf (i.castLE hk) = some (choice i)) ∧
        IsCheapest (fun i : Fin k => problem.cost (i.castLE hk)) choice ∧
        ∑ i : Fin k, u (i.castLE hk) + ∑ j, v j =
          ∑ i : Fin k, problem.cost (i.castLE hk) (choice i) := by
  obtain ⟨run, first, hrun, hfirst, hextends⟩ := Run.exists_extends problem.cost min_le_max hk
  obtain ⟨run', hrun', -, u, v, hpotentials, -⟩ := Run.exists_certified problem.cost min_le_max hk
  cases hrun.symm.trans hrun'
  obtain ⟨choice, hcheapest, hchoice, htotal⟩ :=
    hextends.exists_cheapest min_le_max hfirst hpotentials
  have hleast : ∀ row, k ≤ row.val → IsLeast (Set.range (problem.cost row)) (u row) :=
    fun row hrow => hextends.isLeast min_le_max hpotentials hrow
  rw [← costs_eq_exact] at hrun hfirst hextends
  rw [← costs_firstRows] at hfirst
  obtain ⟨final, hfinal, rfl⟩ := Run.complete_of_cast _ _ hfirst
  exact ⟨run, ⟨problem.firstRows hk, final⟩, hrun, solve_eq_ok hfinal, hextends, u, v, choice,
    hpotentials, hleast, hchoice, hcheapest, htotal⟩

theorem exists_phases_firstRows_two_of_three :
    let problem : Problem (Exact ℚ) 4 3 :=
      ⟨Grid.exact ![![4, 1, 3], ![2, 0, 5], ![3, 2, 2], ![1, 1, 6]],
        Criterion.maximize.withGate (.finite 1), fun i j => by simp,
        fun gate hgate => by cases hgate; rfl⟩
    ∃ hk : 2 ≤ min 4 3,
      ∃ run solution, Run.phases problem.costs 2 (Run.start problem.costs) = .ok run ∧
        (problem.firstRows hk).solve = .ok solution ∧
        Run.Extends problem.costs hk
          (solution.run.cast (min_eq_left (le_max_of_le_min hk))
            (max_eq_right (le_max_of_le_min hk))) run ∧
        ∃ u v choice, run.potentials = Potentials.exact u v ∧
          (∀ row, 2 ≤ row.val → IsLeast (Set.range (problem.cost row)) (u row)) ∧
          (∀ i : Fin 2, run.matching.columnOf (i.castLE hk) = some (choice i)) ∧
          IsCheapest (fun i : Fin 2 => problem.cost (i.castLE hk)) choice ∧
          ∑ i : Fin 2, u (i.castLE hk) + ∑ j, v j =
            ∑ i : Fin 2, problem.cost (i.castLE hk) (choice i) := by
  intro problem
  exact ⟨by decide, problem.exists_phases_firstRows (by decide)⟩

end Problem
end LinearAssignment
