import LinearAssignment.Problem.Costs
import LinearAssignment.Proofs.Pairing

/-! The cells of the standard form and the pairs of the table are in bijection: the sides are
exchanged in a table that is taller than wide, and left alone otherwise. -/
namespace LinearAssignment.Problem

theorem locate_fst_val (i : Fin (min rows cols)) (j : Fin (max rows cols)) :
    (locate i j).1.val = if cols < rows then j.val else i.val := by
  unfold locate
  split <;> rfl

theorem locate_snd_val (i : Fin (min rows cols)) (j : Fin (max rows cols)) :
    (locate i j).2.val = if cols < rows then i.val else j.val := by
  unfold locate
  split <;> rfl

def innerRow (pair : Fin rows × Fin cols) : Fin (min rows cols) :=
  if h : cols < rows then pair.2.cast (min_eq_cols h).symm else pair.1.cast (min_eq_rows h).symm

def innerCol (pair : Fin rows × Fin cols) : Fin (max rows cols) :=
  if h : cols < rows then pair.1.cast (max_eq_rows h).symm else pair.2.cast (max_eq_cols h).symm

theorem innerRow_val (pair : Fin rows × Fin cols) :
    (innerRow pair).val = if cols < rows then pair.2.val else pair.1.val := by
  unfold innerRow
  split <;> rfl

theorem innerCol_val (pair : Fin rows × Fin cols) :
    (innerCol pair).val = if cols < rows then pair.1.val else pair.2.val := by
  unfold innerCol
  split <;> rfl

@[simp] theorem innerRow_locate (i : Fin (min rows cols)) (j : Fin (max rows cols)) :
    innerRow (locate i j) = i := by
  apply Fin.ext
  rw [innerRow_val, locate_fst_val, locate_snd_val]
  split <;> rfl

@[simp] theorem innerCol_locate (i : Fin (min rows cols)) (j : Fin (max rows cols)) :
    innerCol (locate i j) = j := by
  apply Fin.ext
  rw [innerCol_val, locate_fst_val, locate_snd_val]
  split <;> rfl

@[simp] theorem locate_inner (pair : Fin rows × Fin cols) :
    locate (innerRow pair) (innerCol pair) = pair := by
  apply Prod.ext <;> apply Fin.ext
  · rw [locate_fst_val, innerRow_val, innerCol_val]
    split <;> rfl
  · rw [locate_snd_val, innerRow_val, innerCol_val]
    split <;> rfl

def orientation (rows cols : Nat) :
    Fin (min rows cols) × Fin (max rows cols) ≃ Fin rows × Fin cols where
  toFun cell := locate cell.1 cell.2
  invFun pair := (innerRow pair, innerCol pair)
  left_inv cell := by simp
  right_inv pair := by simp

@[simp] theorem orientation_apply (cell : Fin (min rows cols) × Fin (max rows cols)) :
    orientation rows cols cell = locate cell.1 cell.2 := rfl

@[simp] theorem orientation_symm_apply (pair : Fin rows × Fin cols) :
    (orientation rows cols).symm pair = (innerRow pair, innerCol pair) := rfl

theorem inner_eq_of_eq {pair other : Fin rows × Fin cols}
    (h : pair.1 = other.1 ∨ pair.2 = other.2) :
    innerRow pair = innerRow other ∨ innerCol pair = innerCol other := by
  unfold innerRow innerCol
  split
  · exact h.symm.imp (fun heq => by rw [heq]) fun heq => by rw [heq]
  · exact h.imp (fun heq => by rw [heq]) fun heq => by rw [heq]

theorem eq_of_inner_eq {pair other : Fin rows × Fin cols}
    (h : innerRow pair = innerRow other ∨ innerCol pair = innerCol other) :
    pair.1 = other.1 ∨ pair.2 = other.2 := by
  rw [Fin.ext_iff, Fin.ext_iff, innerRow_val, innerCol_val, innerRow_val, innerCol_val] at h
  rw [Fin.ext_iff, Fin.ext_iff]
  split at h
  · exact h.symm
  · exact h

theorem isPairing_locate {cells : Finset (Fin (min rows cols) × Fin (max rows cols))}
    (h : IsPairing cells) : IsPairing (cells.map (orientation rows cols).toEmbedding) := by
  apply h.map
  · intro cell other heq
    simpa using inner_eq_of_eq (Or.inl heq)
  · intro cell other heq
    simpa using inner_eq_of_eq (Or.inr heq)

theorem isPairing_inner {pairs : Finset (Fin rows × Fin cols)} (h : IsPairing pairs) :
    IsPairing (pairs.map (orientation rows cols).symm.toEmbedding) := by
  apply h.map
  · exact fun pair other heq => eq_of_inner_eq (Or.inl heq)
  · exact fun pair other heq => eq_of_inner_eq (Or.inr heq)

variable [Scalar α] (problem : Problem α rows cols)

def kept (cells : Finset (Fin (min rows cols) × Fin (max rows cols))) :
    Finset (Fin (min rows cols) × Fin (max rows cols)) :=
  cells.filter fun cell => problem.admissibleIn cell.1 cell.2 = true

theorem mem_kept {cells : Finset (Fin (min rows cols) × Fin (max rows cols))}
    {cell : Fin (min rows cols) × Fin (max rows cols)} :
    cell ∈ problem.kept cells ↔ cell ∈ cells ∧ problem.admissibleIn cell.1 cell.2 = true :=
  Finset.mem_filter

theorem kept_subset (cells : Finset (Fin (min rows cols) × Fin (max rows cols))) :
    problem.kept cells ⊆ cells := Finset.filter_subset _ _

end LinearAssignment.Problem
