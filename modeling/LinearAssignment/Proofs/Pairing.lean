import LinearAssignment.Matching.Basic
import Mathlib

/-! Sets of pairs in which no row and no column comes up twice, as what a matching is compared
with. When there are at least as many columns as rows, such a set can always be completed to one
that covers every row. -/
namespace LinearAssignment

structure IsPairing (pairs : Finset (Fin m × Fin n)) : Prop where
  eq_of_fst : ∀ pair ∈ pairs, ∀ other ∈ pairs, pair.1 = other.1 → pair = other
  eq_of_snd : ∀ pair ∈ pairs, ∀ other ∈ pairs, pair.2 = other.2 → pair = other

namespace IsPairing

variable {pairs : Finset (Fin m × Fin n)}

theorem subset {part : Finset (Fin m × Fin n)} (h : IsPairing pairs) (hpart : part ⊆ pairs) :
    IsPairing part where
  eq_of_fst := fun pair hpair other hother => h.eq_of_fst pair (hpart hpair) other (hpart hother)
  eq_of_snd := fun pair hpair other hother => h.eq_of_snd pair (hpart hpair) other (hpart hother)

theorem card_image_fst (h : IsPairing pairs) : (pairs.image Prod.fst).card = pairs.card :=
  Finset.card_image_of_injOn fun pair hpair other hother =>
    h.eq_of_fst pair hpair other hother

theorem card_image_snd (h : IsPairing pairs) : (pairs.image Prod.snd).card = pairs.card :=
  Finset.card_image_of_injOn fun pair hpair other hother =>
    h.eq_of_snd pair hpair other hother

theorem card_le_rows (h : IsPairing pairs) : pairs.card ≤ m := by
  rw [← h.card_image_fst]
  exact (Finset.card_le_univ _).trans_eq (Fintype.card_fin m)

theorem exists_row (h : IsPairing pairs) (hcard : pairs.card < m) :
    ∃ row, ∀ pair ∈ pairs, pair.1 ≠ row := by
  have hlt : (pairs.image Prod.fst).card < (Finset.univ : Finset (Fin m)).card := by
    rwa [h.card_image_fst, Finset.card_univ, Fintype.card_fin]
  obtain ⟨row, -, hrow⟩ := Finset.exists_mem_notMem_of_card_lt_card hlt
  exact ⟨row, fun pair hpair heq => hrow (heq ▸ Finset.mem_image_of_mem _ hpair)⟩

theorem exists_col (h : IsPairing pairs) (hcard : pairs.card < n) :
    ∃ col, ∀ pair ∈ pairs, pair.2 ≠ col := by
  have hlt : (pairs.image Prod.snd).card < (Finset.univ : Finset (Fin n)).card := by
    rwa [h.card_image_snd, Finset.card_univ, Fintype.card_fin]
  obtain ⟨col, -, hcol⟩ := Finset.exists_mem_notMem_of_card_lt_card hlt
  exact ⟨col, fun pair hpair heq => hcol (heq ▸ Finset.mem_image_of_mem _ hpair)⟩

theorem insert (h : IsPairing pairs) (hrow : ∀ pair ∈ pairs, pair.1 ≠ row)
    (hcol : ∀ pair ∈ pairs, pair.2 ≠ col) : IsPairing (insert (row, col) pairs) := by
  constructor
  · intro pair hpair other hother heq
    rcases Finset.mem_insert.mp hpair with rfl | hpair <;>
      rcases Finset.mem_insert.mp hother with rfl | hother
    · rfl
    · exact absurd heq.symm (hrow other hother)
    · exact absurd heq (hrow pair hpair)
    · exact h.eq_of_fst pair hpair other hother heq
  · intro pair hpair other hother heq
    rcases Finset.mem_insert.mp hpair with rfl | hpair <;>
      rcases Finset.mem_insert.mp hother with rfl | hother
    · rfl
    · exact absurd heq.symm (hcol other hother)
    · exact absurd heq (hcol pair hpair)
    · exact h.eq_of_snd pair hpair other hother heq

theorem exists_complete (h : IsPairing pairs) (hmn : m ≤ n) :
    ∃ full, pairs ⊆ full ∧ IsPairing full ∧ full.card = m := by
  obtain ⟨missing, hmissing⟩ := Nat.exists_eq_add_of_le h.card_le_rows
  -- As long as a row is left over so is a column, and the two make one more pair.
  induction missing generalizing pairs with
  | zero => exact ⟨pairs, subset_rfl, h, hmissing.symm⟩
  | succ missing ih =>
    obtain ⟨row, hrow⟩ := h.exists_row (by omega)
    obtain ⟨col, hcol⟩ := h.exists_col (by omega)
    have hnew : (row, col) ∉ pairs := fun hmem => hrow _ hmem rfl
    obtain ⟨full, hsub, hfull, hcard⟩ := ih (h.insert hrow hcol) (by
      rw [Finset.card_insert_of_notMem hnew]
      omega)
    exact ⟨full, (Finset.subset_insert _ _).trans hsub, hfull, hcard⟩

theorem image_fst_eq_univ (h : IsPairing pairs) (hcard : pairs.card = m) :
    pairs.image Prod.fst = Finset.univ := by
  apply Finset.eq_univ_of_card
  rw [h.card_image_fst, hcard, Fintype.card_fin]

theorem sum_fst [AddCommMonoid M] (h : IsPairing pairs) (hcard : pairs.card = m)
    (value : Fin m → M) : ∑ pair ∈ pairs, value pair.1 = ∑ row, value row := by
  rw [← h.image_fst_eq_univ hcard,
    Finset.sum_image fun pair hpair other hother => h.eq_of_fst pair hpair other hother]

theorem sum_snd [AddCommMonoid M] (h : IsPairing pairs) (value : Fin n → M) :
    ∑ pair ∈ pairs, value pair.2 = ∑ col ∈ pairs.image Prod.snd, value col := by
  rw [Finset.sum_image fun pair hpair other hother => h.eq_of_snd pair hpair other hother]

theorem of_injective {choice : Fin m → Fin n} (h : Function.Injective choice) :
    IsPairing (Finset.univ.image fun row => (row, choice row)) := by
  constructor
  · intro pair hpair other hother heq
    obtain ⟨row, -, rfl⟩ := Finset.mem_image.mp hpair
    obtain ⟨row', -, rfl⟩ := Finset.mem_image.mp hother
    cases (heq : row = row')
    rfl
  · intro pair hpair other hother heq
    obtain ⟨row, -, rfl⟩ := Finset.mem_image.mp hpair
    obtain ⟨row', -, rfl⟩ := Finset.mem_image.mp hother
    cases h heq
    rfl

theorem map (h : IsPairing pairs) (rename : Fin m × Fin n ↪ Fin k × Fin l)
    (hfst : ∀ pair other, (rename pair).1 = (rename other).1 →
      pair.1 = other.1 ∨ pair.2 = other.2)
    (hsnd : ∀ pair other, (rename pair).2 = (rename other).2 →
      pair.1 = other.1 ∨ pair.2 = other.2) : IsPairing (pairs.map rename) := by
  have heq : ∀ pair ∈ pairs, ∀ other ∈ pairs, pair.1 = other.1 ∨ pair.2 = other.2 →
      pair = other := by
    rintro pair hpair other hother (hrow | hcol)
    · exact h.eq_of_fst pair hpair other hother hrow
    · exact h.eq_of_snd pair hpair other hother hcol
  constructor
  · intro pair hpair other hother hends
    obtain ⟨old, hold, rfl⟩ := Finset.mem_map.mp hpair
    obtain ⟨old', hold', rfl⟩ := Finset.mem_map.mp hother
    rw [heq old hold old' hold' (hfst old old' hends)]
  · intro pair hpair other hother hends
    obtain ⟨old, hold, rfl⟩ := Finset.mem_map.mp hpair
    obtain ⟨old', hold', rfl⟩ := Finset.mem_map.mp hother
    rw [heq old hold old' hold' (hsnd old old' hends)]

end IsPairing

theorem card_image_choice (choice : Fin m → Fin n) :
    (Finset.univ.image fun row => (row, choice row)).card = m := by
  rw [Finset.card_image_of_injective _ fun _ _ heq => congrArg Prod.fst heq, Finset.card_univ,
    Fintype.card_fin]

theorem sum_image_choice [AddCommMonoid M] (choice : Fin m → Fin n) (value : Fin m → Fin n → M) :
    ∑ pair ∈ Finset.univ.image (fun row => (row, choice row)), value pair.1 pair.2 =
      ∑ row, value row (choice row) :=
  Finset.sum_image fun _ _ _ _ heq => congrArg Prod.fst heq

end LinearAssignment
