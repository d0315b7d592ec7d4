import LinearAssignment.Proofs.Search.Plain
import LinearAssignment.Proofs.Search.Slack

/-! Which of several columns a search takes when they are as near as each other. It takes the lowest
one. Under the initial potentials the nearest column of the root is thus the first of its cheapest
ones, and no step is made to reach it: the search ends there if this column is free, and otherwise
goes on from it to a second column at least. -/
namespace LinearAssignment

structure FirstCheapest [LE K] [LT K] (cost : Fin m → Fin n → K) (row : Fin m) (col : Fin n) :
    Prop where
  le : ∀ j, cost row col ≤ cost row j
  lt : ∀ j < col, cost row col < cost row j

theorem exists_firstCheapest [LinearOrder K] (cost : Fin m → Fin n → K) (hn : 0 < n)
    (row : Fin m) : ∃ col, FirstCheapest cost row col := by
  have : Nonempty (Fin n) := ⟨⟨0, hn⟩⟩
  obtain ⟨cheapest, hcheapest⟩ := Finite.exists_min (cost row)
  obtain ⟨col, hcol, hlowest⟩ :=
    wellFounded_lt.has_min {j | ∀ k, cost row j ≤ cost row k} ⟨cheapest, hcheapest⟩
  refine ⟨col, hcol, fun j hj => ?_⟩
  by_contra hnot
  exact hlowest j (fun k => (not_lt.mp hnot).trans (hcol k)) hj

theorem FirstCheapest.unique [LinearOrder K] {cost : Fin m → Fin n → K}
    (h : FirstCheapest cost row j) (h' : FirstCheapest cost row k) : j = k := by
  rcases lt_trichotomy j k with hlt | heq | hgt
  · exact absurd (h.le k) (not_le.mpr (h'.lt j hlt))
  · exact heq
  · exact absurd (h'.le j) (not_le.mpr (h.lt k hgt))

namespace Search

theorem exists_first_round [Scalar α] {costs : Grid α m n} {matching : Matching m n}
    {count : Nat} {row : Fin m} {search last : Search α m n}
    (hgrow : grow costs matching count row search = .ok (col, last)) :
    search.cols.length < last.cols.length ∧ ∃ j next, search.advance costs row = some (j, next) ∧
      (matching.rowOf j = none ∧ j = col ∧ next = last ∨
        matching.rowOf j ≠ none ∧ search.cols.length + 1 < last.cols.length) := by
  -- The second case needs to know of the rest of the search that it takes a column at least.
  refine grow_induction (motive := fun _ row search =>
    search.cols.length < last.cols.length ∧ ∃ j next, search.advance costs row = some (j, next) ∧
      (matching.rowOf j = none ∧ j = col ∧ next = last ∨
        matching.rowOf j ≠ none ∧ search.cols.length + 1 < last.cols.length)) ?_ ?_ hgrow
  · intro _ row search hnext hfree
    obtain ⟨-, hcols, -⟩ := cols_of_advance hnext
    refine ⟨?_, col, last, hnext, .inl ⟨hfree, rfl, rfl⟩⟩
    rw [hcols]
    exact Nat.lt_succ_self _
  · rintro _ row search j next owner hnext howner ⟨hlater, -⟩
    obtain ⟨-, hcols, -⟩ := cols_of_advance hnext
    rw [cols_enter, hcols, List.length_cons] at hlater
    refine ⟨Nat.lt_of_succ_lt hlater, j, next, hnext, .inr ⟨?_, hlater⟩⟩
    rw [howner]
    exact Option.some_ne_none owner

variable [Field K] [LinearOrder K] {cost : Fin m → Fin n → K} {matching : Matching m n}
  {workspace : Workspace (Exact K) m n} {root : Fin m}

theorem slack_nearest_lt {search : Search (Exact K) m n} (h : search.nearest? = some col)
    (hj : j ∉ search.cols) (hlt : j < col) : search.slack col < search.slack j := by
  rw [nearest?_eq_find?, List.find?_eq_some_iff_append] at h
  obtain ⟨hleast, before, after, hsplit, hbefore⟩ := h
  have hleast : ∀ k ∈ search.outside, search.slack col ≤ search.slack k := by
    simpa using hleast
  have hsorted : search.outside.Pairwise (· < ·) := (List.pairwise_lt_finRange n).filter _
  have hout := mem_outside.mpr hj
  rw [hsplit] at hsorted hout
  -- The columns outside stand in ascending order, so this one stands before the nearest.
  have hmem : j ∈ before := by
    rcases List.mem_append.mp hout with hmem | hmem
    · exact hmem
    rcases List.mem_cons.mp hmem with rfl | hmem
    · exact absurd hlt (lt_irrefl j)
    · have hgt := List.rel_of_pairwise_cons (List.pairwise_append.mp hsorted).2.1 hmem
      exact absurd hlt hgt.asymm
  by_contra hnot
  have hle := Exact.not_lt.mp hnot
  have hall : (search.outside.all fun k => search.slack j ≤ search.slack k) = true := by
    simpa using fun k hk => Exact.le_trans hle (hleast k (mem_outside.mpr hk))
  have hfound := hbefore j hmem
  rw [hall] at hfound
  cases hfound

/-- A search whose first round has found the free column, for nothing. -/
structure Immediate (potentials : Potentials α m n) (root : Fin m) (col : Fin n)
    (last : Search α m n) : Prop where
  cols_eq : last.cols = [col]
  steps_eq : last.steps = []
  potentials_eq : last.potentials = potentials
  parent_eq : last.parent col = root.val

variable [IsStrictOrderedRing K]

theorem advance_start_initial (hmn : m ≤ n) {next : Search (Exact K) m n}
    (hnext : (start workspace (Potentials.initial (Grid.exact cost)) root).advance
      (Grid.exact cost) root = some (col, next)) :
    FirstCheapest cost root col ∧
      Immediate (Potentials.initial (Grid.exact cost)) root col next := by
  obtain ⟨lowest, hlowest, hinitial⟩ := exists_initial_exact cost hmn
  rw [hinitial] at hnext ⊢
  obtain ⟨hnearest, rfl⟩ := advance_eq_some.mp hnext
  have hslack (j : Fin n) : ((start workspace (Potentials.exact lowest fun _ => 0) root).relax
      (Grid.exact cost) root).slack j = .finite (cost root j - lowest root) := by
    rw [slack_relax_start_exact, sub_zero]
  have hfirst : FirstCheapest cost root col := by
    constructor
    · intro j
      have hle := slack_nearest_le hnearest (List.not_mem_nil (a := j))
      rwa [hslack, hslack, Exact.finite_le, sub_le_sub_iff_right] at hle
    · intro j hj
      have hlt := slack_nearest_lt hnearest List.not_mem_nil hj
      rwa [hslack, hslack, Exact.finite_lt, sub_lt_sub_iff_right] at hlt
  obtain ⟨j, hj⟩ := (hlowest root).1
  have hzero : cost root col - lowest root = 0 :=
    sub_eq_zero.mpr (le_antisymm (hj ▸ hfirst.le j) ((hlowest root).2 ⟨col, rfl⟩))
  rw [hslack, hzero, lower_of_not_pos _ ((Exact.finite_lt 0 0).not.mpr (lt_irrefl 0))]
  refine ⟨hfirst, rfl, rfl, rfl, ?_⟩
  rw [parent_visit]
  exact parent_relax_start (Potentials.slack_exact_lt_infinity lowest _ cost root col) workspace

/-- From the initial potentials a search takes the first of the cheapest columns of its root and
nothing else, unless this column has an owner. -/
theorem immediate_or_longer (hmn : m ≤ n) {last : Search (Exact K) m n}
    (hrun : run (Grid.exact cost) matching workspace (Potentials.initial (Grid.exact cost)) root =
      .ok (col, last)) {first : Fin n} (hfirst : FirstCheapest cost root first) :
    matching.rowOf first = none ∧ col = first ∧
        Immediate (Potentials.initial (Grid.exact cost)) root col last ∨
      matching.rowOf first ≠ none ∧ 2 ≤ last.cols.length := by
  obtain ⟨-, j, next, hnext, hends⟩ := exists_first_round hrun
  obtain ⟨hcheapest, himmediate⟩ := advance_start_initial hmn hnext
  obtain rfl := hfirst.unique hcheapest
  rcases hends with ⟨hfree, rfl, rfl⟩ | hlonger
  · exact .inl ⟨hfree, rfl, himmediate⟩
  · exact .inr hlonger

end Search
end LinearAssignment
