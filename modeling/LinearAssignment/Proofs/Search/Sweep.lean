import LinearAssignment.Proofs.Search.Ties

/-! Searches over rows that are constant. Under the initial potentials no column has any slack to any
row, so no column is nearer than another, no step is made, and an owner that enters the tree brings
no column nearer either. The columns come in from the left, and all of them keep the root as their
parent. -/
namespace LinearAssignment.Search

variable [Field K] [LinearOrder K]

/-- A search that has taken the columns before a certain one, and knows of no slack. -/
structure Sweep (level : Fin m → K) (root : Fin m) (search : Search (Exact K) m n) : Prop where
  potentials_eq : search.potentials = Potentials.exact level fun _ => 0
  steps_eq : search.steps = []
  slack_eq : ∀ j, search.slack j = .finite 0
  parent_eq : ∀ j, search.parent j = root.val
  mem_cols : ∀ j, j ∈ search.cols ↔ j.val < search.cols.length

variable {level : Fin m → K} {root : Fin m}

theorem sweep_start (level : Fin m → K) (workspace : Workspace (Exact K) m n) (root : Fin m) :
    Sweep level root ((start workspace (Potentials.exact level fun _ => 0) root).relax
      (Grid.exact fun i _ => level i) root) where
  potentials_eq := rfl
  steps_eq := rfl
  slack_eq j := by rw [slack_relax_start_exact, sub_self, sub_zero]
  parent_eq j := parent_relax_start (Potentials.slack_exact_lt_infinity level _ _ root j) workspace
  mem_cols j := iff_of_false List.not_mem_nil (Nat.not_lt_zero _)

theorem Sweep.relax {search : Search (Exact K) m n} (h : Sweep level root search) (row : Fin m) :
    Sweep level root ((search.enter row).relax (Grid.exact fun i _ => level i) row) := by
  have hfar (j : Fin n) :
      ¬(search.enter row).closer (Grid.exact fun i _ => level i) row j = true := by
    rw [closer_eq_true, potentials_enter, h.potentials_eq, Potentials.slack_exact, sub_self,
      sub_zero, slack_enter, h.slack_eq, Exact.finite_lt]
    exact fun hcloser => lt_irrefl 0 hcloser.2
  constructor
  case potentials_eq => exact h.potentials_eq
  case steps_eq => exact h.steps_eq
  case slack_eq =>
    intro j
    rw [slack_relax, if_neg (hfar j)]
    exact h.slack_eq j
  case parent_eq =>
    intro j
    rw [parent_relax, if_neg (hfar j)]
    exact h.parent_eq j
  case mem_cols => exact h.mem_cols

theorem Sweep.advance {search next : Search (Exact K) m n} {costs : Grid (Exact K) m n}
    (h : Sweep level root (search.relax costs row))
    (hnext : search.advance costs row = some (col, next)) :
    col.val = search.cols.length ∧ Sweep level root next := by
  obtain ⟨hnearest, rfl⟩ := advance_eq_some.mp hnext
  have hge : search.cols.length ≤ col.val := by
    have hout := (h.mem_cols col).not.mp (cols_of_advance hnext).1
    exact Nat.not_lt.mp hout
  have hcol : col.val = search.cols.length := by
    apply Nat.le_antisymm _ hge
    by_contra hgt
    have hlt := Nat.not_le.mp hgt
    let skipped : Fin n := ⟨search.cols.length, hlt.trans col.isLt⟩
    have hout : skipped ∉ (search.relax costs row).cols :=
      (h.mem_cols skipped).not.mpr (Nat.lt_irrefl _)
    have hless := slack_nearest_lt hnearest hout hlt
    rw [h.slack_eq, h.slack_eq, Exact.finite_lt] at hless
    exact lt_irrefl 0 hless
  rw [h.slack_eq, lower_of_not_pos _ ((Exact.finite_lt 0 0).not.mpr (lt_irrefl 0))]
  refine ⟨hcol, h.potentials_eq, h.steps_eq, h.slack_eq, h.parent_eq, fun j => ?_⟩
  have hmem : j ∈ search.cols ↔ j.val < search.cols.length := h.mem_cols j
  rw [cols_visit, cols_relax, List.mem_cons, List.length_cons, hmem, Fin.ext_iff, hcol]
  omega

theorem sweep_of_run {matching : Matching m n} {workspace : Workspace (Exact K) m n}
    {last : Search (Exact K) m n}
    (hrun : run (Grid.exact fun i _ => level i) matching workspace
      (Potentials.exact level fun _ => 0) root = .ok (col, last)) :
    Sweep level root last ∧ last.cols.length = col.val + 1 := by
  obtain ⟨row, search, hsweep, hlast, -⟩ :=
    grow_last (fun row search =>
        Sweep level root (search.relax (Grid.exact fun i _ => level i) row))
      (fun _ _ _ _ owner h hnext _ => (h.advance hnext).2.relax owner)
      (sweep_start level workspace root) hrun
  obtain ⟨hcol, hsweep'⟩ := hsweep.advance hlast
  refine ⟨hsweep', ?_⟩
  rw [(cols_of_advance hlast).2.1, List.length_cons, hcol]

end LinearAssignment.Search
