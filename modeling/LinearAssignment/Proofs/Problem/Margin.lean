import LinearAssignment.Proofs.Problem.Penalty

/-! Complete choices of columns under a gate. Of two choices the one with fewer refused pairs is
cheaper by a margin of one, however the admissible costs are spread over rows and signs. Between
choices with as many refused pairs the penalties cancel out, and the admissible costs decide. -/
namespace LinearAssignment.Problem

section
variable [Scalar α] (problem : Problem α rows cols)
  (choice : Fin (min rows cols) → Fin (max rows cols))

def admissibleRows : Finset (Fin (min rows cols)) :=
  Finset.univ.filter fun i => problem.admissibleIn i (choice i) = true

def refusals : Nat :=
  (Finset.univ.filter fun i => problem.admissibleIn i (choice i) = false).card

def admissibleCost : α :=
  Scalar.sum <| ((List.finRange (min rows cols)).filter fun i =>
    problem.admissibleIn i (choice i)).map fun i => problem.costs.entry i (choice i)

theorem card_admissibleRows_add_refusals :
    (problem.admissibleRows choice).card + problem.refusals choice = min rows cols := by
  have hsplit := Finset.card_filter_add_card_filter_not (s := Finset.univ)
    fun i => problem.admissibleIn i (choice i) = true
  simp only [Bool.not_eq_true, Finset.card_univ, Fintype.card_fin] at hsplit
  exact hsplit

theorem kept_image_choice :
    problem.kept (Finset.univ.image fun i => (i, choice i)) =
      (problem.admissibleRows choice).image fun i => (i, choice i) :=
  Finset.filter_image

theorem card_kept_image_choice :
    (problem.kept (Finset.univ.image fun i => (i, choice i))).card =
      (problem.admissibleRows choice).card := by
  rw [kept_image_choice, Finset.card_image_of_injective _ fun _ _ heq => congrArg Prod.fst heq]

end

variable [Field K] [LinearOrder K] (problem : Problem (Exact K) rows cols)

theorem sum_kept_image_choice (choice : Fin (min rows cols) → Fin (max rows cols)) :
    ∑ cell ∈ problem.kept (Finset.univ.image fun i => (i, choice i)), problem.signedNumber cell =
      ∑ i ∈ problem.admissibleRows choice, problem.signedNumber (i, choice i) := by
  rw [kept_image_choice, Finset.sum_image fun _ _ _ _ heq => congrArg Prod.fst heq]

theorem costOf_costs (choice : Fin (min rows cols) → Fin (max rows cols)) :
    problem.costs.costOf choice = .finite (∑ i, problem.cost i (choice i)) := by
  rw [costs_eq_exact, Grid.costOf_exact]

theorem admissibleCost_eq_sum (choice : Fin (min rows cols) → Fin (max rows cols)) :
    problem.admissibleCost choice =
      .finite (∑ i ∈ problem.admissibleRows choice, problem.signedNumber (i, choice i)) := by
  have hentries : (((List.finRange (min rows cols)).filter fun i =>
      problem.admissibleIn i (choice i)).map fun i => problem.costs.entry i (choice i)) =
      (((List.finRange (min rows cols)).filter fun i => problem.admissibleIn i (choice i)).map
        fun i => problem.signedNumber (i, choice i)).map Exact.finite := by
    rw [List.map_map]
    apply List.map_congr_left
    intro i hi
    rw [problem.entry_costs_of_admissibleIn (List.mem_filter.mp hi).2, costIn_eq_signedNumber]
    rfl
  rw [admissibleCost, hentries, Exact.sum_finite,
    ← List.sum_toFinset _ ((List.nodup_finRange _).filter _), List.toFinset_filter,
    List.toFinset_finRange]
  rfl

theorem sum_cost_choice_sub {p q : Fin (min rows cols) → Fin (max rows cols)}
    (h : problem.refusals p = problem.refusals q) :
    ∑ i, problem.cost i (p i) - ∑ i, problem.cost i (q i) =
      ∑ i ∈ problem.admissibleRows p, problem.signedNumber (i, p i) -
        ∑ i ∈ problem.admissibleRows q, problem.signedNumber (i, q i) := by
  have hp := problem.card_admissibleRows_add_refusals p
  have hq := problem.card_admissibleRows_add_refusals q
  have hcard : (problem.admissibleRows p).card = (problem.admissibleRows q).card := by omega
  rw [← sum_image_choice p, ← sum_image_choice q, sum_cost, sum_cost, card_image_choice,
    card_image_choice, card_kept_image_choice, card_kept_image_choice, hcard,
    add_sub_add_right_eq_sub, sum_kept_image_choice, sum_kept_image_choice]

variable [IsStrictOrderedRing K]

/-- One refused pair less outweighs whatever the others cost. -/
theorem sum_cost_choice_add_one_le {p q : Fin (min rows cols) → Fin (max rows cols)}
    (h : problem.refusals p < problem.refusals q) :
    ∑ i, problem.cost i (p i) + 1 ≤ ∑ i, problem.cost i (q i) := by
  have hp := problem.card_admissibleRows_add_refusals p
  have hq := problem.card_admissibleRows_add_refusals q
  rw [← sum_image_choice p, ← sum_image_choice q]
  apply problem.sum_cost_add_one_le
  · rw [card_image_choice, card_image_choice]
  · rw [card_kept_image_choice, card_kept_image_choice]
    omega

/-- What complete choices cost, in all and in admissible pairs, are numbers. Of two choices the one
with fewer refused pairs costs less by at least one, and choices with as many refused pairs differ
by what their admissible pairs cost. -/
theorem exists_margin : ∃ cost admitted : (Fin (min rows cols) ↪ Fin (max rows cols)) → K,
    (∀ p : Fin (min rows cols) ↪ Fin (max rows cols),
      problem.costs.costOf p = .finite (cost p) ∧
        problem.admissibleCost p = .finite (admitted p)) ∧
    ∀ p q : Fin (min rows cols) ↪ Fin (max rows cols),
      (problem.refusals p < problem.refusals q → cost p + 1 ≤ cost q) ∧
        (problem.refusals p = problem.refusals q →
          cost p - cost q = admitted p - admitted q) := by
  refine ⟨fun p => ∑ i, problem.cost i (p i),
    fun p => ∑ i ∈ problem.admissibleRows p, problem.signedNumber (i, p i), fun p => ?_,
    fun p q => ?_⟩
  · exact ⟨problem.costOf_costs p, problem.admissibleCost_eq_sum p⟩
  · exact ⟨problem.sum_cost_choice_add_one_le, problem.sum_cost_choice_sub⟩

theorem exists_margin_two_by_three :
    let problem : Problem (Exact ℚ) 2 3 :=
      ⟨Grid.exact ![![-3, 5, 9], ![4, 8, -2]], Criterion.minimize.withGate (.finite 5),
        fun i j => by simp, fun gate hgate => by cases hgate; rfl⟩
    let dear : Fin 2 ↪ Fin 3 := ⟨![1, 0], by decide⟩
    let cheap : Fin 2 ↪ Fin 3 := ⟨![0, 2], by decide⟩
    let refused : Fin 2 ↪ Fin 3 := ⟨![0, 1], by decide⟩
    problem.refusals dear = problem.refusals cheap ∧
      problem.refusals dear < problem.refusals refused ∧
      ∃ cost cost' cost'' admitted admitted' : ℚ,
        problem.costs.costOf dear = .finite cost ∧ problem.costs.costOf cheap = .finite cost' ∧
          problem.costs.costOf refused = .finite cost'' ∧
          problem.admissibleCost dear = .finite admitted ∧
          problem.admissibleCost cheap = .finite admitted' ∧
          cost - cost' = admitted - admitted' ∧ cost + 1 ≤ cost'' := by
  intro problem dear cheap refused
  obtain ⟨cost, admitted, hcost, hmargin⟩ := problem.exists_margin
  have hsame : problem.refusals dear = problem.refusals cheap := by decide +kernel
  have hfewer : problem.refusals dear < problem.refusals refused := by decide +kernel
  exact ⟨hsame, hfewer, cost dear, cost cheap, cost refused, admitted dear, admitted cheap,
    (hcost dear).1, (hcost cheap).1, (hcost refused).1, (hcost dear).2, (hcost cheap).2,
    (hmargin dear cheap).2 hsame, (hmargin dear refused).1 hfewer⟩

end LinearAssignment.Problem
