import LinearAssignment.Proofs.Embedding
import LinearAssignment.Proofs.Matching.Path

/-! A matching over the first rows of a taller table, where the rows below them stay free. A path
that is flipped there is flipped here in the same way; only the number of steps that are allowed for
it differs, and a flip that ends does not use them up. -/
namespace LinearAssignment.Matching

def embed (h : m ≤ k) (matching : Matching m n) : Matching k n where
  byRow := Vector.ofFn fun i => if hi : i.val < m then matching.columnOf ⟨i, hi⟩ else none
  byColumn := Vector.ofFn fun j => (matching.rowOf j).map (Fin.castLE h)
  matched := matching.matched

@[simp] theorem columnOf_embed (h : m ≤ k) (matching : Matching m n) (i : Fin m) :
    (matching.embed h).columnOf (i.castLE h) = matching.columnOf i := by
  simp [embed, columnOf]

theorem columnOf_embed_of_le (h : m ≤ k) (matching : Matching m n) {i : Fin k} (hi : m ≤ i.val) :
    (matching.embed h).columnOf i = none := by
  simp [embed, columnOf, Nat.not_lt.mpr hi]

@[simp] theorem rowOf_embed (h : m ≤ k) (matching : Matching m n) (j : Fin n) :
    (matching.embed h).rowOf j = (matching.rowOf j).map (Fin.castLE h) := by
  simp [embed, rowOf]

theorem countOne_embed (h : m ≤ k) (matching : Matching m n) :
    (matching.embed h).countOne = matching.countOne.embed h := rfl

theorem empty_embed (h : m ≤ k) : (empty m n).embed h = empty k n := by
  refine ext (fun i => ?_) (fun i => ?_) rfl
  · rw [columnOf_empty]
    obtain ⟨i, rfl⟩ | hi := castLE_or_le h i
    · rw [columnOf_embed, columnOf_empty]
    · exact columnOf_embed_of_le h _ hi
  · rw [rowOf_embed, rowOf_empty, rowOf_empty, Option.map_none]

theorem embed_refl (matching : Matching m n) : matching.embed (le_refl m) = matching := by
  refine ext (fun i => ?_) (fun i => ?_) rfl
  · exact columnOf_embed (le_refl m) matching i
  · rw [rowOf_embed]
    exact Option.map_id_apply

theorem pair_embed (h : m ≤ k) (matching : Matching m n) (row : Fin m) (col : Fin n) :
    (matching.embed h).pair (row.castLE h) col = (matching.pair row col).embed h := by
  refine ext (fun i => ?_) (fun i => ?_) rfl
  · obtain ⟨i, rfl⟩ | hi := castLE_or_le h i
    · simp [Fin.castLE_inj]
    · have hne : i ≠ row.castLE h := by
        rintro rfl
        exact absurd row.isLt (Nat.not_lt.mpr hi)
      rw [columnOf_pair, if_neg hne, columnOf_embed_of_le h _ hi, columnOf_embed_of_le h _ hi]
  · rw [rowOf_pair, rowOf_embed, rowOf_embed, rowOf_pair]
    split <;> rfl

theorem parentRow_embed (h : m ≤ k) {row : Fin m}
    (hrow : parentRow m parent col = .ok row) : parentRow k parent col = .ok (row.castLE h) := by
  unfold parentRow at hrow ⊢
  split at hrow
  · cases hrow
  · rename_i index hindex
    unfold checkIndex at hrow ⊢
    split at hrow
    · rename_i hlt
      cases hrow
      exact dif_pos (Nat.lt_of_lt_of_le hlt h)
    · cases hrow

theorem flip_embed (h : m ≤ k) {matching next : Matching m n}
    (hflip : flip parent steps col matching = .ok next) (hsteps : steps ≤ steps') :
    flip parent steps' col (matching.embed h) = .ok (next.embed h) := by
  induction steps generalizing steps' col matching with
  | zero => cases hflip
  | succ steps ih =>
    obtain ⟨steps', rfl⟩ := Nat.exists_eq_add_of_lt hsteps
    rw [flip] at hflip ⊢
    split at hflip
    · cases hflip
    · rename_i row hrow
      rw [parentRow_embed h hrow]
      dsimp only
      rw [columnOf_embed]
      split at hflip
      · cases hflip
        rw [pair_embed]
      · rw [pair_embed]
        exact ih hflip (by omega)

theorem augment_eq_ok {matching next : Matching m n} {root : Fin m} {col : Fin n} :
    matching.augment root.val col.val parent = .ok next ↔
      matching.columnOf root = none ∧ matching.rowOf col = none ∧
        ∃ flipped, flip parent m col matching = .ok flipped ∧ flipped.countOne = next := by
  constructor
  · intro haugment
    cases hroot : matching.columnOf root with
    | some j => simp [augment, hroot, bind, Except.bind] at haugment
    | none =>
      cases hcol : matching.rowOf col with
      | some i => simp [augment, hroot, hcol, bind, Except.bind] at haugment
      | none =>
        rw [augment_val matching parent hroot hcol] at haugment
        cases hflip : flip parent m col matching <;> rw [hflip] at haugment <;> cases haugment
        exact ⟨rfl, rfl, _, rfl, rfl⟩
  · rintro ⟨hroot, hcol, flipped, hflip, rfl⟩
    rw [augment_val matching parent hroot hcol, hflip]
    rfl

theorem augment_embed (h : m ≤ k) {matching next : Matching m n} {root : Fin m} {col : Fin n}
    (haugment : matching.augment root.val col.val parent = .ok next) :
    (matching.embed h).augment (root.castLE h).val col.val parent = .ok (next.embed h) := by
  obtain ⟨hroot, hcol, flipped, hflip, rfl⟩ := augment_eq_ok.mp haugment
  apply augment_eq_ok.mpr
  rw [columnOf_embed, rowOf_embed, hcol]
  exact ⟨hroot, rfl, _, flip_embed h hflip h, countOne_embed h flipped⟩

theorem head_freeRows_embed (h : m ≤ k) {matching : Matching m n} {root : Fin m}
    (hroot : matching.freeRows.head? = some root) :
    (matching.embed h).freeRows.head? = some (root.castLE h) := by
  rw [head_freeRows_eq_some] at hroot ⊢
  refine ⟨(columnOf_embed h matching root).trans hroot.1, fun i hi => ?_⟩
  obtain ⟨i, rfl⟩ : ∃ i' : Fin m, i = i'.castLE h := ⟨⟨i, Nat.lt_trans hi root.isLt⟩, rfl⟩
  rw [columnOf_embed]
  exact hroot.2 i hi

end LinearAssignment.Matching
