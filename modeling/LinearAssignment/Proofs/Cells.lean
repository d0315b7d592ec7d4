import LinearAssignment.Grid
import Mathlib

/-! The cells of a grid in their order. Line after line they ascend, so a search finds the first one
that passes its test; and two nested loops visit them in this order, so a check that fails on some of
them stops at the first. -/
namespace LinearAssignment

theorem forM_eq_of_find? {check : β → Except ε Unit} {bad : β → Bool} {failure : β → ε}
    (list : List β)
    (h : ∀ member ∈ list, check member = if bad member then .error (failure member) else .ok ()) :
    forM list check = match list.find? bad with
      | none => .ok ()
      | some member => .error (failure member) := by
  induction list with
  | nil => rfl
  | cons member list ih =>
    rw [List.forall_mem_cons] at h
    rw [List.forM_cons, h.1, List.find?_cons]
    cases bad member with
    | true => rfl
    | false => exact ih h.2

namespace Grid

theorem pairwise_cells (m n : Nat) :
    (cells m n).Pairwise fun cell other => toLex cell < toLex other := by
  rw [cells, List.pairwise_flatMap]
  constructor
  · intro i _
    rw [List.pairwise_map]
    apply (List.pairwise_lt_finRange n).imp
    intro j j' hlt
    exact Prod.Lex.lt_iff.mpr (.inr ⟨rfl, hlt⟩)
  · apply (List.pairwise_lt_finRange m).imp
    intro i i' hlt cell hcell other hother
    obtain ⟨j, -, rfl⟩ := List.mem_map.mp hcell
    obtain ⟨j', -, rfl⟩ := List.mem_map.mp hother
    exact Prod.Lex.lt_iff.mpr (.inl hlt)

variable {test : Fin m × Fin n → Bool} {cell other : Fin m × Fin n}

theorem eq_false_of_find?_cells (h : (cells m n).find? test = some cell)
    (hlt : toLex other < toLex cell) : test other = false := by
  obtain ⟨-, before, after, hcells, hbefore⟩ := List.find?_eq_some_iff_append.mp h
  have hsorted := pairwise_cells m n
  rw [hcells, List.pairwise_append, List.pairwise_cons] at hsorted
  have hmem : other ∈ before ++ cell :: after := hcells ▸ mem_cells other
  rcases List.mem_append.mp hmem with hmem | hmem
  · simpa using hbefore other hmem
  · rcases List.mem_cons.mp hmem with rfl | hmem
    · exact absurd hlt (lt_irrefl _)
    · exact absurd hlt (hsorted.2.1.1 other hmem).asymm

theorem find?_cells_eq_some : (cells m n).find? test = some cell ↔
    test cell = true ∧ ∀ other, toLex other < toLex cell → test other = false := by
  constructor
  · exact fun hfind => ⟨List.find?_some hfind, fun _ => eq_false_of_find?_cells hfind⟩
  · rintro ⟨htest, hbefore⟩
    have hsome : ((cells m n).find? test).isSome = true :=
      List.find?_isSome.mpr ⟨cell, mem_cells cell, htest⟩
    obtain ⟨found, hfound⟩ := Option.isSome_iff_exists.mp hsome
    rcases lt_trichotomy (toLex found) (toLex cell) with hlt | heq | hlt
    · exact absurd (hbefore found hlt) (by simp [List.find?_some hfound])
    · rwa [← toLex.injective heq]
    · exact absurd (eq_false_of_find?_cells hfound hlt) (by simp [htest])

theorem forM_range_eq_forM_cells (check : Nat → Nat → Except ε Unit) :
    (forM (List.range m) fun row => forM (List.range n) (check row)) =
      forM (cells m n) fun cell => check cell.1.val cell.2.val := by
  -- The induction is on the lines that are still to come, whichever they are.
  have hlines (lines : List (Fin m)) :
      (forM lines fun i => forM (List.range n) (check i.val)) =
        forM (lines.flatMap fun i => (List.finRange n).map fun j => (i, j))
          fun cell => check cell.1.val cell.2.val := by
    induction lines with
    | nil => rfl
    | cons i lines ih =>
      rw [List.forM_cons, List.flatMap_cons, List.forM_append, List.forM_map, ih,
        ← List.map_coe_finRange_eq_range, List.forM_map]
  rw [← List.map_coe_finRange_eq_range, List.forM_map]
  exact hlines (List.finRange m)

end Grid
end LinearAssignment
