import LinearAssignment.Proofs.Exact
import LinearAssignment.Proofs.Matching.Pairs

/-! Potentials as the certificate of a matching. Feasible potentials bound every complete set of
pairs from below; a complete matching that is tight under them, with the columns it leaves free at
zero, meets the bound and is therefore of least cost. -/
namespace LinearAssignment

variable [Field K] [LinearOrder K]

/-- The potentials stay below the costs and meet them on the matched pairs. A column is not above
zero, and at zero while it is free. -/
structure Certificate (cost : Fin m → Fin n → K) (matching : Matching m n) (u : Fin m → K)
    (v : Fin n → K) : Prop where
  feasible : ∀ i j, u i + v j ≤ cost i j
  tight : ∀ i j, matching.columnOf i = some j → u i + v j = cost i j
  nonpos : ∀ j, v j ≤ 0
  free : ∀ j, matching.rowOf j = none → v j = 0

theorem initial_exact (cost : Fin m → Fin n → K) (hn : 0 < n) (i : Fin m) :
    ∃ lowest, (Potentials.initial (Grid.exact cost)).row i = .finite lowest ∧
      IsLeast (Set.range (cost i)) lowest := by
  have hne : (List.finRange n).map (cost i) ≠ [] := by
    intro hnil
    have hlength := congrArg List.length hnil
    rw [List.length_map, List.length_finRange, List.length_nil] at hlength
    omega
  obtain ⟨lowest, hmem, hmin, hle⟩ := Exact.minimum_finite hne
  obtain ⟨j, -, hj⟩ := List.mem_map.mp hmem
  refine ⟨lowest, ?_, ⟨j, hj⟩, ?_⟩
  · rw [Potentials.row_initial, ← hmin, List.map_map]
    congr 2
    funext j
    simp
  · rintro _ ⟨j, rfl⟩
    exact hle _ (List.mem_map_of_mem (List.mem_finRange j))

theorem exists_initial_exact (cost : Fin m → Fin n → K) (hmn : m ≤ n) :
    ∃ lowest : Fin m → K, (∀ i, IsLeast (Set.range (cost i)) (lowest i)) ∧
      Potentials.initial (Grid.exact cost) = Potentials.exact lowest fun _ => 0 := by
  have hminimum (i : Fin m) := initial_exact cost (Nat.lt_of_lt_of_le i.pos hmn) i
  choose lowest hrow hleast using hminimum
  refine ⟨lowest, hleast, ?_⟩
  apply Potentials.ext
  · intro i
    rw [hrow, Potentials.row_exact]
  · intro j
    rw [Potentials.col_initial, Potentials.col_exact]
    rfl

theorem certificate_initial (cost : Fin m → Fin n → K) (hmn : m ≤ n) :
    ∃ u v, Potentials.initial (Grid.exact cost) = Potentials.exact u v ∧
      Certificate cost (Matching.empty m n) u v := by
  obtain ⟨lowest, hleast, hinitial⟩ := exists_initial_exact cost hmn
  refine ⟨lowest, fun _ => 0, hinitial, ?_⟩
  exact
    { feasible := fun i j => by simpa using (hleast i).2 ⟨j, rfl⟩
      tight := fun i j h => by simp at h
      nonpos := fun j => le_refl 0
      free := fun j _ => rfl }

namespace Certificate

variable {cost : Fin m → Fin n → K} {matching : Matching m n} {u : Fin m → K} {v : Fin n → K}

theorem total_eq (h : Certificate cost matching u v) (hm : matching.Consistent)
    (hcomplete : matching.pairs.length = m) :
    ∑ i, u i + ∑ j, v j = ∑ pair ∈ matching.pairs.toFinset, cost pair.1 pair.2 := by
  have hp := hm.isPairing
  have hcard := matching.card_pairs.trans hcomplete
  have hcols : ∑ j ∈ matching.pairs.toFinset.image Prod.snd, v j = ∑ j, v j := by
    apply Finset.sum_subset (Finset.subset_univ _)
    intro j _ hj
    apply h.free
    cases hrow : matching.rowOf j with
    | none => rfl
    | some i =>
      have hpair : (i, j) ∈ matching.pairs.toFinset :=
        List.mem_toFinset.mpr (Matching.mem_pairs.mpr ((hm i j).mpr hrow))
      exact absurd (Finset.mem_image_of_mem Prod.snd hpair) hj
  calc ∑ i, u i + ∑ j, v j
      = ∑ pair ∈ matching.pairs.toFinset, (u pair.1 + v pair.2) := by
        rw [Finset.sum_add_distrib, hp.sum_fst hcard, hp.sum_snd, hcols]
    _ = ∑ pair ∈ matching.pairs.toFinset, cost pair.1 pair.2 := by
        apply Finset.sum_congr rfl
        intro pair hpair
        exact h.tight _ _ (Matching.mem_pairs.mp (List.mem_toFinset.mp hpair))

end Certificate

variable [IsStrictOrderedRing K]

theorem total_le_of_feasible {cost : Fin m → Fin n → K} {u : Fin m → K} {v : Fin n → K}
    (hfeasible : ∀ i j, u i + v j ≤ cost i j) (hnonpos : ∀ j, v j ≤ 0)
    {pairs : Finset (Fin m × Fin n)} (hp : IsPairing pairs) (hcard : pairs.card = m) :
    ∑ i, u i + ∑ j, v j ≤ ∑ pair ∈ pairs, cost pair.1 pair.2 := by
  -- Columns that are left out take nothing away from the bound.
  have hcols : ∑ j, v j ≤ ∑ j ∈ pairs.image Prod.snd, v j :=
    Finset.sum_le_sum_of_subset_of_nonpos' (Finset.subset_univ _) fun j _ _ => hnonpos j
  calc ∑ i, u i + ∑ j, v j
      ≤ ∑ pair ∈ pairs, u pair.1 + ∑ pair ∈ pairs, v pair.2 := by
        rw [hp.sum_fst hcard, hp.sum_snd]
        exact add_le_add_right hcols _
    _ = ∑ pair ∈ pairs, (u pair.1 + v pair.2) := Finset.sum_add_distrib.symm
    _ ≤ ∑ pair ∈ pairs, cost pair.1 pair.2 :=
        Finset.sum_le_sum fun pair _ => hfeasible pair.1 pair.2

/-- Potentials below the costs bound every choice of different columns. Only the columns that the
choice leaves out must not be above zero, and of as many columns as rows it leaves out none. -/
theorem total_le_of_injective {cost : Fin m → Fin n → K} {u : Fin m → K} {v : Fin n → K}
    (hfeasible : ∀ i j, u i + v j ≤ cost i j) (hnonpos : m ≠ n → ∀ j, v j ≤ 0)
    {choice : Fin m → Fin n} (h : Function.Injective choice) :
    ∑ i, u i + ∑ j, v j ≤ ∑ i, cost i (choice i) := by
  have hcols : ∑ j, v j ≤ ∑ i, v (choice i) := by
    by_cases hmn : m = n
    · subst hmn
      exact ((Finite.injective_iff_bijective.mp h).sum_comp v).ge
    · calc ∑ j, v j
          ≤ ∑ j ∈ Finset.univ.image choice, v j :=
            Finset.sum_le_sum_of_subset_of_nonpos' (Finset.subset_univ _)
              fun j _ _ => hnonpos hmn j
        _ = ∑ i, v (choice i) := Finset.sum_image h.injOn
  calc ∑ i, u i + ∑ j, v j
      ≤ ∑ i, u i + ∑ i, v (choice i) := add_le_add_right hcols _
    _ = ∑ i, (u i + v (choice i)) := Finset.sum_add_distrib.symm
    _ ≤ ∑ i, cost i (choice i) := Finset.sum_le_sum fun i _ => hfeasible i (choice i)

theorem Certificate.cost_le {cost : Fin m → Fin n → K} {matching : Matching m n}
    {u : Fin m → K} {v : Fin n → K} (h : Certificate cost matching u v) (hm : matching.Consistent)
    (hcomplete : matching.pairs.length = m) {pairs : Finset (Fin m × Fin n)} (hp : IsPairing pairs)
    (hcard : pairs.card = m) :
    ∑ pair ∈ matching.pairs.toFinset, cost pair.1 pair.2 ≤
      ∑ pair ∈ pairs, cost pair.1 pair.2 := by
  rw [← h.total_eq hm hcomplete]
  exact total_le_of_feasible h.feasible h.nonpos hp hcard

structure IsCheapest (cost : Fin m → Fin n → K) (choice : Fin m → Fin n) : Prop where
  injective : Function.Injective choice
  le : ∀ other : Fin m → Fin n, Function.Injective other →
    ∑ i, cost i (choice i) ≤ ∑ i, cost i (other i)

theorem Certificate.exists_cheapest {cost : Fin m → Fin n → K} {matching : Matching m n}
    {u : Fin m → K} {v : Fin n → K} (h : Certificate cost matching u v) (hm : matching.Consistent)
    (hmatched : ∀ i, matching.columnOf i ≠ none) :
    ∃ choice, IsCheapest cost choice ∧ (∀ i, matching.columnOf i = some (choice i)) ∧
      ∑ i, u i + ∑ j, v j = ∑ i, cost i (choice i) := by
  choose choice hchoice using fun i => Option.ne_none_iff_exists'.mp (hmatched i)
  have hpairs : matching.pairs.toFinset = Finset.univ.image fun i => (i, choice i) := by
    ext ⟨i, j⟩
    simp [hchoice, Prod.ext_iff]
  have htotal := h.total_eq hm (Matching.length_pairs_of_matched hmatched)
  rw [hpairs, sum_image_choice choice cost] at htotal
  refine ⟨choice, ⟨fun i i' heq => ?_, fun other hother => ?_⟩, hchoice, htotal⟩
  · have hrow := (hm i _).mp (hchoice i)
    rw [heq, (hm i' _).mp (hchoice i')] at hrow
    exact (Option.some.inj hrow).symm
  · rw [← htotal, ← sum_image_choice other cost]
    exact total_le_of_feasible h.feasible h.nonpos (.of_injective hother) (card_image_choice other)

/-- Rows that go up together with columns that go down keep a certificate, when no slack between
them and the other columns is used up and matched pairs stay together. -/
theorem Certificate.raised {cost : Fin m → Fin n → K} {matching : Matching m n}
    {u : Fin m → K} {v : Fin n → K} (h : Certificate cost matching u v) {rows : List (Fin m)}
    {cols : List (Fin n)} {step : K} (hstep : 0 ≤ step)
    (hslack : ∀ i ∈ rows, ∀ j ∉ cols, step ≤ cost i j - u i - v j)
    (hpair : ∀ i j, matching.columnOf i = some j → (i ∈ rows ↔ j ∈ cols))
    (hmatched : ∀ j ∈ cols, matching.rowOf j ≠ none) :
    Certificate cost matching (Potentials.raised rows step u)
      (Potentials.raised cols (-step) v) := by
  constructor
  case feasible =>
    intro i j
    have hfeasible := h.feasible i j
    by_cases hi : i ∈ rows <;> by_cases hj : j ∈ cols <;> simp only [Potentials.raised, hi, hj,
      if_true, if_false]
    · linarith
    · linarith [hslack i hi j hj]
    · linarith
    · exact hfeasible
  case tight =>
    intro i j hij
    have htight := h.tight i j hij
    by_cases hi : i ∈ rows
    · rw [Potentials.raised_of_mem hi, Potentials.raised_of_mem ((hpair i j hij).mp hi)]
      linarith
    · have hj : j ∉ cols := fun hj => hi ((hpair i j hij).mpr hj)
      rw [Potentials.raised_of_not_mem hi, Potentials.raised_of_not_mem hj, htight]
  case nonpos =>
    intro j
    have hnonpos := h.nonpos j
    by_cases hj : j ∈ cols
    · rw [Potentials.raised_of_mem hj]
      linarith
    · rwa [Potentials.raised_of_not_mem hj]
  case free =>
    intro j hj
    have hout : j ∉ cols := fun hmem => hmatched j hmem hj
    rw [Potentials.raised_of_not_mem hout, h.free j hj]

end LinearAssignment
