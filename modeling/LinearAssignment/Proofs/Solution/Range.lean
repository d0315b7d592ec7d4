import LinearAssignment.Proofs.Problem.Exact
import LinearAssignment.Proofs.Run.Range

/-! The range of all numbers that solving a problem comes to. It depends on the costs alone and
neither on the size of the table nor on the number of phases, so it says which problems are solved
without rounding or overflow in numbers of a given width. -/
namespace LinearAssignment

variable [Field K] [LinearOrder K] [IsStrictOrderedRing K]

/-- The costs of the standard form, penalties included, bound every number of the run; whole costs
make them whole and at most four times as large. -/
theorem Problem.allRanged (problem : Problem (Exact K) rows cols) :
    (∀ lo hi, lo ≤ hi → (∀ i j, problem.cost i j ∈ Set.Icc lo hi) →
      Run.AllRanged (Ranges.between problem.cost lo hi) problem.costs) ∧
    ∀ bound, 0 ≤ bound → (∀ i j, problem.cost i j ∈ Ranges.wholeUpTo bound) →
      Run.AllRanged (Ranges.whole (4 * bound)) problem.costs := by
  rw [problem.costs_eq_exact]
  constructor
  · intro lo hi hle hcost
    have hall := Run.allRanged_inter (S := ⊤) min_le_max hle hcost fun i j => AddSubgroup.mem_top _
    exact hall.mono (Ranges.inter_within _ _)
  · intro bound hbound hcost
    have hIcc (i : Fin (min rows cols)) (j : Fin (max rows cols)) :
        problem.cost i j ∈ Set.Icc (-bound) bound := abs_le.mp (hcost i j).2
    have hwhole (i : Fin (min rows cols)) (j : Fin (max rows cols)) :
        problem.cost i j ∈ (Int.castAddHom K).range := (hcost i j).1
    have hall := Run.allRanged_inter min_le_max (neg_le_self hbound) hIcc hwhole
    exact hall.mono (Ranges.between_within_whole hbound hIcc)

theorem Problem.allRanged_two_by_three :
    let problem : Problem (Exact ℚ) 2 3 :=
      ⟨Grid.exact ![![1, 4, 9], ![2, 8, 9]], ⟨.minimize, some (.finite 5)⟩, fun i j => by simp,
        fun gate hgate => by cases hgate; rfl⟩
    problem.penalty = .finite 15 ∧ (∀ i j, problem.cost i j ∈ Set.Icc 1 15) ∧
      (∀ i j, problem.cost i j ∈ Ranges.wholeUpTo 15) ∧
      Run.AllRanged (Ranges.between problem.cost 1 15) problem.costs ∧
      Run.AllRanged (Ranges.whole (4 * 15)) problem.costs := by
  intro problem
  have hcost : ∀ i j, problem.cost i j ∈ Set.Icc 1 15 := by
    change ∀ i j, 1 ≤ problem.cost i j ∧ problem.cost i j ≤ 15
    decide +kernel
  have hwhole : ∀ i j, problem.cost i j ∈ Ranges.wholeUpTo 15 := by
    have hnum : ∀ i j, ((problem.cost i j).num : ℚ) = problem.cost i j := by decide +kernel
    intro i j
    refine ⟨⟨_, hnum i j⟩, abs_le.mpr ⟨?_, (hcost i j).2⟩⟩
    linarith [(hcost i j).1]
  exact ⟨by decide +kernel, hcost, hwhole, problem.allRanged.1 1 15 (by norm_num) hcost,
    problem.allRanged.2 15 (by norm_num) hwhole⟩

end LinearAssignment
