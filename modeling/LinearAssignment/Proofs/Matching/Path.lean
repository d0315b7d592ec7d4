import LinearAssignment.Matching.Augment
import Mathlib.Tactic

/-! The alternating path back from a column, read in the matching as it is before any of it is
flipped. Parents and matching leave no choice, so a path that ends never comes back to a row or a
column, whatever the parents are. Flipping in place therefore has the effect of flipping the whole
path at once. -/
namespace LinearAssignment.Matching

def Consistent (matching : Matching m n) : Prop :=
  ∀ row col, matching.columnOf row = some col ↔ matching.rowOf col = some row

theorem consistent_empty (m n : Nat) : (empty m n).Consistent := by
  intro row col
  simp

/-- The path from a column to a free row. Each pair on it is a parent row and the column that this
row is to take; the column that the row had before comes next. -/
inductive Path (matching : Matching m n) (parent : Array Nat) (root : Fin m) :
    Fin n → List (Fin m × Fin n) → Prop where
  | last (hparent : parentRow m parent col.val = .ok root)
      (hfree : matching.columnOf root = none) : Path matching parent root col [(root, col)]
  | step (hparent : parentRow m parent col.val = .ok row)
      (hreleased : matching.columnOf row = some released)
      (rest : Path matching parent root released path) :
      Path matching parent root col ((row, col) :: path)

def pairAll (matching : Matching m n) (path : List (Fin m × Fin n)) : Matching m n :=
  path.foldl (fun current pair => current.pair pair.1 pair.2) matching

@[simp] theorem pairAll_nil (matching : Matching m n) : matching.pairAll [] = matching := rfl

@[simp] theorem pairAll_cons (matching : Matching m n) (pair : Fin m × Fin n)
    (path : List (Fin m × Fin n)) :
    matching.pairAll (pair :: path) = (matching.pair pair.1 pair.2).pairAll path := rfl

@[simp] theorem size_pairAll (matching : Matching m n) (path : List (Fin m × Fin n)) :
    (matching.pairAll path).size = matching.size := by
  induction path generalizing matching with
  | nil => rfl
  | cons pair path ih => exact ih (matching.pair pair.1 pair.2)

theorem columnOf_pairAll_of_not_mem {matching : Matching m n} {path : List (Fin m × Fin n)}
    (h : row ∉ path.map Prod.fst) :
    (matching.pairAll path).columnOf row = matching.columnOf row := by
  induction path generalizing matching with
  | nil => rfl
  | cons pair path ih =>
    rw [List.map_cons, List.mem_cons, not_or] at h
    rw [pairAll_cons, ih h.2, columnOf_pair, if_neg h.1]

theorem rowOf_pairAll_of_not_mem {matching : Matching m n} {path : List (Fin m × Fin n)}
    (h : col ∉ path.map Prod.snd) :
    (matching.pairAll path).rowOf col = matching.rowOf col := by
  induction path generalizing matching with
  | nil => rfl
  | cons pair path ih =>
    rw [List.map_cons, List.mem_cons, not_or] at h
    rw [pairAll_cons, ih h.2, rowOf_pair, if_neg h.1]

theorem columnOf_pairAll_of_mem {matching : Matching m n} {path : List (Fin m × Fin n)}
    (hrows : (path.map Prod.fst).Nodup) (h : (row, col) ∈ path) :
    (matching.pairAll path).columnOf row = some col := by
  induction path generalizing matching with
  | nil => cases h
  | cons pair path ih =>
    rw [List.map_cons, List.nodup_cons] at hrows
    rw [pairAll_cons]
    rcases List.mem_cons.mp h with heq | htail
    · subst heq
      rw [columnOf_pairAll_of_not_mem hrows.1, columnOf_pair, if_pos rfl]
    · exact ih hrows.2 htail

theorem rowOf_pairAll_of_mem {matching : Matching m n} {path : List (Fin m × Fin n)}
    (hcols : (path.map Prod.snd).Nodup) (h : (row, col) ∈ path) :
    (matching.pairAll path).rowOf col = some row := by
  induction path generalizing matching with
  | nil => cases h
  | cons pair path ih =>
    rw [List.map_cons, List.nodup_cons] at hcols
    rw [pairAll_cons]
    rcases List.mem_cons.mp h with heq | htail
    · subst heq
      rw [rowOf_pairAll_of_not_mem hcols.1, rowOf_pair, if_pos rfl]
    · exact ih hcols.2 htail

namespace Path

variable {matching : Matching m n} {parent : Array Nat} {root : Fin m}

theorem root_free (h : Path matching parent root col path) :
    matching.columnOf root = none := by
  induction h with
  | last hparent hfree => exact hfree
  | step hparent hreleased rest ih => exact ih

theorem root_mem (h : Path matching parent root col path) : root ∈ path.map Prod.fst := by
  induction h with
  | last hparent hfree => exact List.mem_singleton_self root
  | step hparent hreleased rest ih => exact List.mem_cons_of_mem _ ih

theorem col_mem (h : Path matching parent root col path) : col ∈ path.map Prod.snd := by
  cases h <;> exact List.mem_cons_self

theorem parentRow_of_mem (h : Path matching parent root col path) (hmem : (row, j) ∈ path) :
    parentRow m parent j.val = .ok row := by
  induction h with
  | last hparent hfree =>
    cases List.mem_singleton.mp hmem
    exact hparent
  | step hparent hreleased rest ih =>
    rcases List.mem_cons.mp hmem with heq | htail
    · cases heq
      exact hparent
    · exact ih htail

theorem congr {other : Array Nat} (h : Path matching parent root col path)
    (heq : ∀ pair ∈ path, parentRow m other pair.2.val = parentRow m parent pair.2.val) :
    Path matching other root col path := by
  induction h with
  | last hparent hfree =>
    exact .last ((heq _ List.mem_cons_self).trans hparent) hfree
  | step hparent hreleased rest ih =>
    refine .step ((heq _ List.mem_cons_self).trans hparent) hreleased (ih fun pair hpair => ?_)
    exact heq pair (List.mem_cons_of_mem _ hpair)

theorem eq_root_of_free (h : Path matching parent root col path)
    (hmem : row ∈ path.map Prod.fst) (hfree : matching.columnOf row = none) : row = root := by
  induction h with
  | last hparent hroot => exact List.mem_singleton.mp hmem
  | step hparent hreleased rest ih =>
    rcases List.mem_cons.mp hmem with heq | htail
    · subst heq
      rw [hreleased] at hfree
      cases hfree
    · exact ih htail

theorem mem_cols (h : Path matching parent root col path) :
    j ∈ path.map Prod.snd ↔
      j = col ∨ ∃ row ∈ path.map Prod.fst, matching.columnOf row = some j := by
  induction h with
  | last hparent hfree => simp [hfree]
  | step hparent hreleased rest ih =>
    rw [List.map_cons, List.mem_cons, ih]
    simp [hreleased, eq_comm]

theorem unique (h : Path matching parent root col path)
    (h' : Path matching parent root' col path') : root = root' ∧ path = path' := by
  induction h generalizing path' with
  | last hparent hfree =>
    cases h' with
    | last hparent' hfree' =>
      cases hparent.symm.trans hparent'
      exact ⟨rfl, rfl⟩
    | step hparent' hreleased' rest' =>
      cases hparent.symm.trans hparent'
      cases hfree.symm.trans hreleased'
  | step hparent hreleased rest ih =>
    cases h' with
    | last hparent' hfree' =>
      cases hparent.symm.trans hparent'
      cases hreleased.symm.trans hfree'
    | step hparent' hreleased' rest' =>
      cases hparent.symm.trans hparent'
      cases hreleased.symm.trans hreleased'
      obtain ⟨hroot, hpath⟩ := ih rest'
      exact ⟨hroot, congrArg _ hpath⟩

theorem suffix_of_mem (h : Path matching parent root col path) (hmem : j ∈ path.map Prod.snd) :
    ∃ rest, rest <:+ path ∧ Path matching parent root j rest := by
  induction h with
  | last hparent hfree =>
    cases List.mem_singleton.mp hmem
    exact ⟨_, List.suffix_refl _, .last hparent hfree⟩
  | step hparent hreleased rest ih =>
    rcases List.mem_cons.mp hmem with heq | htail
    · cases heq
      exact ⟨_, List.suffix_refl _, .step hparent hreleased rest⟩
    · obtain ⟨tail, hsuffix, htail⟩ := ih htail
      exact ⟨tail, hsuffix.trans (List.suffix_cons _ _), htail⟩

theorem nodup_cols (h : Path matching parent root col path) : (path.map Prod.snd).Nodup := by
  induction h with
  | last hparent hfree => exact List.nodup_singleton _
  | step hparent hreleased rest ih =>
    rw [List.map_cons, List.nodup_cons]
    refine ⟨fun hmem => ?_, ih⟩
    -- The path from a column that comes up again would be a proper part of itself.
    obtain ⟨tail, hsuffix, htail⟩ := rest.suffix_of_mem hmem
    obtain ⟨-, heq⟩ := (Path.step hparent hreleased rest).unique htail
    have hlength := hsuffix.length_le
    rw [← heq, List.length_cons] at hlength
    omega

theorem nodup_rows (h : Path matching parent root col path) : (path.map Prod.fst).Nodup := by
  induction h with
  | last hparent hfree => exact List.nodup_singleton _
  | @step row released path col hparent hreleased rest ih =>
    rw [List.map_cons, List.nodup_cons]
    refine ⟨fun hmem => ?_, ih⟩
    obtain ⟨⟨i, j⟩, hpair, hrow⟩ := List.mem_map.mp hmem
    cases hrow
    -- A row that comes up again releases the same column again.
    have hj := rest.parentRow_of_mem hpair
    obtain ⟨tail, hsuffix, htail⟩ := rest.suffix_of_mem (List.mem_map_of_mem hpair)
    obtain ⟨-, heq⟩ := (Path.step hj hreleased rest).unique htail
    have hlength := hsuffix.length_le
    rw [← heq, List.length_cons] at hlength
    omega

theorem length_le (h : Path matching parent root col path) : path.length ≤ m := by
  simpa using h.nodup_rows.length_le_card

/-- Flipping in place. The current matching may differ from the one that the path was read in, as
long as the rows ahead have their columns still. -/
theorem flip_of_agree (h : Path matching parent root col path) {current : Matching m n}
    (hagree : ∀ row ∈ path.map Prod.fst, current.columnOf row = matching.columnOf row)
    (hsteps : path.length ≤ steps) :
    flip parent steps col current = .ok (current.pairAll path) := by
  induction h generalizing current steps with
  | last hparent hfree =>
    obtain ⟨steps, rfl⟩ := Nat.exists_eq_add_of_lt hsteps
    have hcurrent := (hagree _ List.mem_cons_self).trans hfree
    simp [flip, hparent, hcurrent]
  | @step row released path col hparent hreleased rest ih =>
    obtain ⟨steps, rfl⟩ := Nat.exists_eq_add_of_lt hsteps
    have hcurrent := (hagree _ List.mem_cons_self).trans hreleased
    have hrow := (List.nodup_cons.mp (Path.step hparent hreleased rest).nodup_rows).1
    simp only [flip, hparent, hcurrent]
    rw [pairAll_cons]
    apply ih
    -- The rows ahead are other rows than this one, so pairing it leaves them alone.
    · intro i hi
      have hne : i ≠ row := by
        rintro rfl
        exact hrow hi
      rw [columnOf_pair, if_neg hne]
      exact hagree i (List.mem_cons_of_mem _ hi)
    · simp only [List.length_cons] at hsteps ⊢
      omega

theorem flip_eq (h : Path matching parent root col path) :
    flip parent m col matching = .ok (matching.pairAll path) :=
  h.flip_of_agree (fun _ _ => rfl) h.length_le

theorem row_mem_iff_col_mem (h : Path matching parent root col path) (hm : matching.Consistent)
    (hcol : matching.rowOf col = none) (hpair : matching.columnOf row = some j) :
    row ∈ path.map Prod.fst ↔ j ∈ path.map Prod.snd := by
  rw [h.mem_cols]
  constructor
  · intro hrow
    exact Or.inr ⟨row, hrow, hpair⟩
  · rintro (rfl | ⟨i, hi, hij⟩)
    · rw [(hm row j).mp hpair] at hcol
      cases hcol
    · have heq : row = i := Option.some.inj (((hm row j).mp hpair).symm.trans ((hm i j).mp hij))
      exact heq ▸ hi

theorem columnOf_pairAll (h : Path matching parent root col path) :
    (matching.pairAll path).columnOf row = some j ↔
      (row, j) ∈ path ∨ row ∉ path.map Prod.fst ∧ matching.columnOf row = some j := by
  by_cases hrow : row ∈ path.map Prod.fst
  · obtain ⟨⟨i, k⟩, hpair, hi⟩ := List.mem_map.mp hrow
    cases hi
    rw [columnOf_pairAll_of_mem h.nodup_rows hpair, Option.some_inj]
    constructor
    · rintro rfl
      exact Or.inl hpair
    · rintro (hj | ⟨hnot, -⟩)
      · exact congrArg Prod.snd (List.inj_on_of_nodup_map h.nodup_rows hpair hj rfl)
      · exact absurd hrow hnot
  · rw [columnOf_pairAll_of_not_mem hrow]
    constructor
    · exact fun hj => Or.inr ⟨hrow, hj⟩
    · rintro (hj | ⟨-, hj⟩)
      · exact absurd (List.mem_map_of_mem hj) hrow
      · exact hj

theorem rowOf_pairAll (h : Path matching parent root col path) :
    (matching.pairAll path).rowOf j = some row ↔
      (row, j) ∈ path ∨ j ∉ path.map Prod.snd ∧ matching.rowOf j = some row := by
  by_cases hj : j ∈ path.map Prod.snd
  · obtain ⟨⟨i, k⟩, hpair, hk⟩ := List.mem_map.mp hj
    cases hk
    rw [rowOf_pairAll_of_mem h.nodup_cols hpair, Option.some_inj]
    constructor
    · rintro rfl
      exact Or.inl hpair
    · rintro (hrow | ⟨hnot, -⟩)
      · exact congrArg Prod.fst (List.inj_on_of_nodup_map h.nodup_cols hpair hrow rfl)
      · exact absurd hj hnot
  · rw [rowOf_pairAll_of_not_mem hj]
    constructor
    · exact fun hrow => Or.inr ⟨hj, hrow⟩
    · rintro (hrow | ⟨-, hrow⟩)
      · exact absurd (List.mem_map_of_mem hrow) hj
      · exact hrow

theorem consistent_pairAll (h : Path matching parent root col path) (hm : matching.Consistent)
    (hcol : matching.rowOf col = none) : (matching.pairAll path).Consistent := by
  intro row j
  rw [h.columnOf_pairAll, h.rowOf_pairAll]
  apply or_congr_right
  constructor
  · rintro ⟨hrow, hpair⟩
    exact ⟨fun hj => hrow ((h.row_mem_iff_col_mem hm hcol hpair).mpr hj), (hm row j).mp hpair⟩
  · rintro ⟨hj, hpair⟩
    have hpair' := (hm row j).mpr hpair
    exact ⟨fun hrow => hj ((h.row_mem_iff_col_mem hm hcol hpair').mp hrow), hpair'⟩

theorem columnOf_pairAll_eq_none (h : Path matching parent root col path) :
    (matching.pairAll path).columnOf row = none ↔ matching.columnOf row = none ∧ row ≠ root := by
  by_cases hrow : row ∈ path.map Prod.fst
  · obtain ⟨⟨i, j⟩, hpair, hi⟩ := List.mem_map.mp hrow
    cases hi
    rw [columnOf_pairAll_of_mem h.nodup_rows hpair]
    constructor
    · intro hnone
      cases hnone
    · rintro ⟨hfree, hne⟩
      exact absurd (h.eq_root_of_free hrow hfree) hne
  · rw [columnOf_pairAll_of_not_mem hrow]
    constructor
    · exact fun hfree => ⟨hfree, fun heq => hrow (heq ▸ h.root_mem)⟩
    · exact fun hfree => hfree.1

theorem rowOf_pairAll_eq_none (h : Path matching parent root col path) (hm : matching.Consistent) :
    (matching.pairAll path).rowOf j = none ↔ matching.rowOf j = none ∧ j ≠ col := by
  by_cases hj : j ∈ path.map Prod.snd
  · obtain ⟨⟨i, k⟩, hpair, hk⟩ := List.mem_map.mp hj
    cases hk
    rw [rowOf_pairAll_of_mem h.nodup_cols hpair]
    constructor
    · intro hnone
      cases hnone
    · rintro ⟨hfree, hne⟩
      obtain ⟨row, -, hrow⟩ := (h.mem_cols.mp hj).resolve_left hne
      rw [(hm row _).mp hrow] at hfree
      cases hfree
  · rw [rowOf_pairAll_of_not_mem hj]
    constructor
    · exact fun hfree => ⟨hfree, fun heq => hj (heq ▸ h.col_mem)⟩
    · exact fun hfree => hfree.1

theorem augment_eq (h : Path matching parent root col path) (hcol : matching.rowOf col = none) :
    matching.augment root.val col.val parent = .ok (matching.pairAll path).countOne := by
  rw [augment_val matching parent h.root_free hcol, h.flip_eq]
  rfl

end Path
end LinearAssignment.Matching
