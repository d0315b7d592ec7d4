import LinearAssignment.Proofs.Problem.Exact

/-! The penalty dominates every trade. Two totals of admissible costs are less than a penalty
apart, so of two sets of cells of the same size the one that refuses more costs more by at least
one, whatever the admissible costs are. -/
namespace LinearAssignment.Problem

variable [Field K] [LinearOrder K] (problem : Problem (Exact K) rows cols)

theorem kept_subset_admissibleCells
    (cells : Finset (Fin (min rows cols) × Fin (max rows cols))) :
    problem.kept cells ⊆ problem.admissibleCells := by
  intro cell hcell
  exact problem.mem_admissibleCells.mpr (problem.mem_kept.mp hcell).2

theorem sum_cost (cells : Finset (Fin (min rows cols) × Fin (max rows cols))) :
    ∑ cell ∈ cells, problem.cost cell.1 cell.2 =
      ∑ cell ∈ problem.kept cells, problem.signedNumber cell +
        ((cells.card - (problem.kept cells).card : Nat) : K) * problem.fee := by
  have hrefused : (cells.filter fun cell => ¬problem.admissibleIn cell.1 cell.2 = true).card =
      cells.card - (problem.kept cells).card := by
    have hsplit : (problem.kept cells).card +
        (cells.filter fun cell => ¬problem.admissibleIn cell.1 cell.2 = true).card = cells.card :=
      Finset.card_filter_add_card_filter_not _
    omega
  rw [← hrefused, ← nsmul_eq_mul, ← Finset.sum_const]
  exact Finset.sum_ite _ _

variable [IsStrictOrderedRing K]

theorem abs_sum_le_size {cells : Finset (Fin (min rows cols) × Fin (max rows cols))}
    (h : cells ⊆ problem.admissibleCells) :
    |∑ cell ∈ cells, problem.signedNumber cell| ≤ problem.size :=
  calc |∑ cell ∈ cells, problem.signedNumber cell|
      ≤ ∑ cell ∈ cells, |problem.signedNumber cell| := Finset.abs_sum_le_sum_abs _ _
    _ ≤ problem.size :=
        Finset.sum_le_sum_of_subset_of_nonneg h fun _ _ _ => abs_nonneg _

theorem size_eq_sum_admissible : problem.size =
    ∑ pair : Fin rows × Fin cols with problem.admissible pair.1 pair.2 = true,
      |problem.number pair| := by
  apply Finset.sum_equiv (orientation rows cols)
  · intro cell
    rw [mem_admissibleCells, admissibleIn_eq, orientation_apply, Finset.mem_filter]
    exact (and_iff_right (Finset.mem_univ _)).symm
  · intro cell _
    rw [signedNumber, Sense.abs_signed, orientation_apply]

theorem abs_signedNumber_lt_fee {cell : Fin (min rows cols) × Fin (max rows cols)}
    (h : cell ∈ problem.admissibleCells) : |problem.signedNumber cell| < problem.fee := by
  have hsize := problem.abs_sum_le_size (Finset.singleton_subset_iff.mpr h)
  rw [Finset.sum_singleton] at hsize
  have hnonneg := abs_nonneg (problem.signedNumber cell)
  rw [fee]
  linarith

theorem sum_add_one_le {cells others : Finset (Fin (min rows cols) × Fin (max rows cols))}
    (hcells : cells ⊆ problem.admissibleCells) (hothers : others ⊆ problem.admissibleCells) :
    ∑ cell ∈ cells, problem.signedNumber cell + 1 ≤
      ∑ cell ∈ others, problem.signedNumber cell + problem.fee := by
  have habove := (abs_le.mp (problem.abs_sum_le_size hcells)).2
  have hbelow := (abs_le.mp (problem.abs_sum_le_size hothers)).1
  rw [fee]
  linarith

theorem fee_nonneg : 0 ≤ problem.fee := by
  have hsize := problem.abs_sum_le_size (Finset.empty_subset _)
  rw [Finset.sum_empty, abs_zero] at hsize
  rw [fee]
  linarith

theorem sum_cost_add_one_le {cells others : Finset (Fin (min rows cols) × Fin (max rows cols))}
    (hcard : cells.card = others.card)
    (hkept : (problem.kept others).card < (problem.kept cells).card) :
    ∑ cell ∈ cells, problem.cost cell.1 cell.2 + 1 ≤
      ∑ cell ∈ others, problem.cost cell.1 cell.2 := by
  have hle : (problem.kept cells).card ≤ cells.card :=
    Finset.card_le_card (problem.kept_subset cells)
  have hcount : ((cells.card - (problem.kept cells).card : Nat) : K) + 1 ≤
      (others.card - (problem.kept others).card : Nat) := by
    exact_mod_cast (by omega : cells.card - (problem.kept cells).card + 1 ≤
      others.card - (problem.kept others).card)
  have hfees := mul_le_mul_of_nonneg_right hcount problem.fee_nonneg
  have htrade := problem.sum_add_one_le (problem.kept_subset_admissibleCells cells)
    (problem.kept_subset_admissibleCells others)
  rw [sum_cost, sum_cost]
  linarith

theorem card_kept_le {cells others : Finset (Fin (min rows cols) × Fin (max rows cols))}
    (hcard : cells.card = others.card)
    (hle : ∑ cell ∈ cells, problem.cost cell.1 cell.2 ≤
      ∑ cell ∈ others, problem.cost cell.1 cell.2) :
    (problem.kept others).card ≤ (problem.kept cells).card := by
  by_contra hlt
  have hmargin := problem.sum_cost_add_one_le hcard.symm (Nat.lt_of_not_le hlt)
  linarith

theorem sum_kept_le {cells others : Finset (Fin (min rows cols) × Fin (max rows cols))}
    (hcard : cells.card = others.card)
    (hkept : (problem.kept cells).card = (problem.kept others).card)
    (hle : ∑ cell ∈ cells, problem.cost cell.1 cell.2 ≤
      ∑ cell ∈ others, problem.cost cell.1 cell.2) :
    ∑ cell ∈ problem.kept cells, problem.signedNumber cell ≤
      ∑ cell ∈ problem.kept others, problem.signedNumber cell := by
  rw [sum_cost, sum_cost, hcard, hkept] at hle
  exact le_of_add_le_add_right hle

/-- What a complete set of cells of least cost keeps is best among the admissible cells: no set of
them in which nothing comes up twice has more members, and none with as many costs less. -/
theorem kept_best {cells others : Finset (Fin (min rows cols) × Fin (max rows cols))}
    (hcard : cells.card = min rows cols)
    (hbest : ∀ full, IsPairing full → full.card = min rows cols →
      ∑ cell ∈ cells, problem.cost cell.1 cell.2 ≤ ∑ cell ∈ full, problem.cost cell.1 cell.2)
    (hothers : IsPairing others) (hadmissible : others ⊆ problem.admissibleCells) :
    others.card ≤ (problem.kept cells).card ∧
      (others.card = (problem.kept cells).card →
        ∑ cell ∈ problem.kept cells, problem.signedNumber cell ≤
          ∑ cell ∈ others, problem.signedNumber cell) := by
  -- Completing the other set costs at most a penalty for each cell that is added.
  obtain ⟨full, hsubset, hfull, hfullCard⟩ := hothers.exists_complete min_le_max
  have hle := hbest full hfull hfullCard
  have hsame : cells.card = full.card := hcard.trans hfullCard.symm
  have hkept : others ⊆ problem.kept full := fun cell hcell =>
    problem.mem_kept.mpr ⟨hsubset hcell, problem.mem_admissibleCells.mp (hadmissible hcell)⟩
  have hmore := problem.card_kept_le hsame hle
  refine ⟨(Finset.card_le_card hkept).trans hmore, fun heq => ?_⟩
  have hall : others = problem.kept full := Finset.eq_of_subset_of_card_le hkept (by omega)
  rw [hall] at heq ⊢
  exact problem.sum_kept_le hsame heq.symm hle

end LinearAssignment.Problem
