import LinearAssignment.Proofs.Matching.Embedding
import LinearAssignment.Proofs.Widening

/-! A matching of the columns on the left of a wider table, where the far columns stay free. A path
of near columns is flipped there in the same way, and in as many steps, because these are counted by
rows. -/
namespace LinearAssignment.Matching

def widen (k : Nat) (matching : Matching m n) : Matching m (n + k) where
  byRow := Vector.ofFn fun i => (matching.columnOf i).map (Fin.castAdd k)
  byColumn := Vector.ofFn (Fin.append matching.rowOf fun _ => none)
  matched := matching.matched

@[simp] theorem columnOf_widen (k : Nat) (matching : Matching m n) (i : Fin m) :
    (matching.widen k).columnOf i = (matching.columnOf i).map (Fin.castAdd k) := by
  simp [widen, columnOf]

@[simp] theorem rowOf_widen_near (k : Nat) (matching : Matching m n) (j : Fin n) :
    (matching.widen k).rowOf (j.castAdd k) = matching.rowOf j := by
  simp [widen, rowOf]

@[simp] theorem rowOf_widen_far (matching : Matching m n) (far : Fin k) :
    (matching.widen k).rowOf (Fin.natAdd n far) = none := by
  simp [widen, rowOf]

theorem countOne_widen (k : Nat) (matching : Matching m n) :
    (matching.widen k).countOne = matching.countOne.widen k := rfl

theorem empty_widen (k : Nat) : (empty m n).widen k = empty m (n + k) := by
  refine ext (fun i => ?_) (fun i => ?_) rfl
  · rw [columnOf_widen, columnOf_empty, columnOf_empty, Option.map_none]
  · induction i using Fin.addCases with
    | left j => rw [rowOf_widen_near, rowOf_empty, rowOf_empty]
    | right far => rw [rowOf_widen_far, rowOf_empty]

theorem pair_widen (k : Nat) (matching : Matching m n) (row : Fin m) (col : Fin n) :
    (matching.widen k).pair row (col.castAdd k) = (matching.pair row col).widen k := by
  refine ext (fun i => ?_) (fun i => ?_) rfl
  · rw [columnOf_pair, columnOf_widen, columnOf_widen, columnOf_pair]
    split <;> rfl
  · induction i using Fin.addCases with
    | left j => simp [(Fin.castAdd_injective n k).eq_iff]
    | right far =>
      rw [rowOf_pair, if_neg (near_ne_far col far).symm, rowOf_widen_far, rowOf_widen_far]

theorem freeRows_widen (k : Nat) (matching : Matching m n) :
    (matching.widen k).freeRows = matching.freeRows := by
  rw [freeRows, freeRows]
  apply List.filter_congr
  intro row _
  rw [columnOf_widen, Option.isNone_map]

theorem pairs_widen (k : Nat) (matching : Matching m n) :
    (matching.widen k).pairs =
      matching.pairs.map fun pair => (pair.1, pair.2.castAdd k) := by
  rw [pairs, pairs, List.map_filterMap]
  congr 1
  funext row
  rw [columnOf_widen, Option.map_map, Option.map_map]
  rfl

theorem parentRow_widen {parents : Vector Nat n} {wider : Vector Nat (n + k)} {col : Fin n}
    (h : wider.get (col.castAdd k) = parents.get col) :
    parentRow m wider.toArray (col.castAdd k).val = parentRow m parents.toArray col.val := by
  have hget : wider[col.val] = parents[col.val] := h
  simp [parentRow, hget, Nat.lt_add_right]

theorem flip_widen {parents : Vector Nat n} {wider : Vector Nat (n + k)}
    (h : ∀ col, wider.get (col.castAdd k) = parents.get col) (steps : Nat) (col : Fin n)
    (matching : Matching m n) :
    flip wider.toArray steps (col.castAdd k) (matching.widen k) =
      (flip parents.toArray steps col matching).map (widen k) := by
  induction steps generalizing col matching with
  | zero => rfl
  | succ steps ih =>
    rw [flip, flip, parentRow_widen (h col)]
    cases parentRow m parents.toArray col.val with
    | error fault => rfl
    | ok row =>
      dsimp only
      rw [columnOf_widen, pair_widen]
      cases matching.columnOf row with
      | none => rfl
      | some released => exact ih released (matching.pair row col)

theorem augment_widen {parents : Vector Nat n} {wider : Vector Nat (n + k)}
    (h : ∀ col, wider.get (col.castAdd k) = parents.get col) {matching next : Matching m n}
    {root : Fin m} {col : Fin n}
    (haugment : matching.augment root.val col.val parents.toArray = .ok next) :
    (matching.widen k).augment root.val (col.castAdd k).val wider.toArray =
      .ok (next.widen k) := by
  obtain ⟨hroot, hcol, flipped, hflip, rfl⟩ := augment_eq_ok.mp haugment
  apply augment_eq_ok.mpr
  rw [columnOf_widen, hroot, rowOf_widen_near, hcol, flip_widen h, hflip]
  exact ⟨rfl, rfl, _, rfl, countOne_widen k flipped⟩

end LinearAssignment.Matching
