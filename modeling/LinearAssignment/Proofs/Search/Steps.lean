import LinearAssignment.Proofs.Exact
import LinearAssignment.Proofs.Search.Reports
import LinearAssignment.Proofs.Search.Tree

/-! The steps of a search. A step that is not positive is neither made nor written down. Whenever
one is made the tree has one row more than columns, so in exact arithmetic the total of the
potentials goes up by the steps and by nothing else. -/
namespace LinearAssignment.Search

section
variable [Scalar α] {costs : Grid α m n} {matching : Matching m n} {root : Fin m}

theorem pos_of_mem_steps_advance {search next : Search α m n}
    (h : ∀ step ∈ search.steps, 0 < step)
    (hnext : search.advance costs row = some (col, next)) : ∀ step ∈ next.steps, 0 < step := by
  obtain ⟨-, rfl⟩ := advance_eq_some.mp hnext
  change ∀ step ∈ ((search.relax costs row).lower ((search.relax costs row).slack col)).steps,
    0 < step
  by_cases hpos : 0 < (search.relax costs row).slack col
  · rw [steps_lower_of_pos _ hpos]
    exact List.forall_mem_cons.mpr ⟨hpos, h⟩
  · rw [lower_of_not_pos _ hpos]
    exact h

theorem pos_of_mem_steps {workspace : Workspace α m n} {potentials : Potentials α m n}
    {last : Search α m n} (hrun : run costs matching workspace potentials root = .ok (col, last)) :
    ∀ step ∈ last.steps, 0 < step := by
  have hstart : ∀ step ∈ (start workspace potentials root).steps, 0 < step := by
    intro step hstep
    cases hstep
  obtain ⟨row, search, hpos, hlast, -⟩ :=
    grow_last (fun _ search => ∀ step ∈ search.steps, 0 < step)
      (fun _ _ _ _ _ h hnext _ step hstep => pos_of_mem_steps_advance h hnext step hstep)
      hstart hrun
  exact pos_of_mem_steps_advance hpos hlast

theorem steps_of_advance {search next : Search α m n}
    (hnext : search.advance costs row = some (col, next)) :
    next.steps.reverse = search.steps.reverse ++
      [Round.step ⟨row, search, col, next⟩ costs].filter (0 < ·) := by
  obtain ⟨-, rfl⟩ := advance_eq_some.mp hnext
  change ((search.relax costs row).lower ((search.relax costs row).slack col)).steps.reverse =
    search.steps.reverse ++ [(search.relax costs row).slack col].filter (0 < ·)
  by_cases hpos : 0 < (search.relax costs row).slack col
  · rw [steps_lower_of_pos _ hpos, List.reverse_cons, List.filter_singleton,
      decide_eq_true hpos, cond_true, steps_relax]
  · rw [lower_of_not_pos _ hpos, List.filter_singleton, decide_eq_false hpos, steps_relax]
    exact (List.append_nil _).symm

theorem steps_of_grow {count : Nat} {search last : Search α m n}
    (hgrow : grow costs matching count row search = .ok (col, last)) :
    last.steps.reverse = search.steps.reverse ++
      ((roundsFrom costs matching count row search).map fun round =>
        round.step costs).filter (0 < ·) := by
  refine grow_induction (motive := fun count row search =>
    last.steps.reverse = search.steps.reverse ++
      ((roundsFrom costs matching count row search).map fun round =>
        round.step costs).filter (0 < ·)) ?_ ?_ hgrow
  · intro count row search hnext hfree
    rw [roundsFrom_of_free hnext hfree]
    exact steps_of_advance hnext
  · intro count row search j next owner hnext howner ih
    rw [roundsFrom_of_owned hnext howner, ih, steps_enter, steps_of_advance hnext,
      List.append_assoc, ← List.filter_append]
    rfl

/-- The steps that a search writes down are the slacks of the selected columns, without those that
are not positive. -/
theorem steps_of_run {workspace : Workspace α m n} {potentials : Potentials α m n}
    {last : Search α m n} (hrun : run costs matching workspace potentials root = .ok (col, last)) :
    last.steps.reverse = ((history costs matching workspace potentials root).map fun round =>
      round.step costs).filter (0 < ·) :=
  steps_of_grow hrun

theorem length_steps_advance {search next : Search α m n}
    (h : search.steps.length ≤ search.cols.length)
    (hnext : search.advance costs row = some (col, next)) :
    next.steps.length ≤ next.cols.length := by
  obtain ⟨-, rfl⟩ := advance_eq_some.mp hnext
  change ((search.relax costs row).lower ((search.relax costs row).slack col)).steps.length ≤ _
  rw [cols_visit, cols_lower, cols_relax, List.length_cons]
  by_cases hpos : 0 < (search.relax costs row).slack col
  · rw [steps_lower_of_pos _ hpos]
    exact Nat.succ_le_succ h
  · rw [lower_of_not_pos _ hpos]
    exact Nat.le_succ_of_le h

theorem length_steps_le {workspace : Workspace α m n} {potentials : Potentials α m n}
    {last : Search α m n} (hrun : run costs matching workspace potentials root = .ok (col, last)) :
    last.steps.length ≤ last.cols.length := by
  let inv : Fin m → Search α m n → Prop := fun _ search =>
    search.steps.length ≤ search.cols.length
  have hstart : inv root (start workspace potentials root) := Nat.le_refl 0
  have hstep : ∀ row search col next owner, inv row search →
      search.advance costs row = some (col, next) → matching.rowOf col = some owner →
        inv owner (next.enter owner) := by
    intro row search col next owner h hnext _
    have hnext' : next.steps.length ≤ next.cols.length := length_steps_advance h hnext
    exact hnext'
  obtain ⟨row, search, hle, hlast, -⟩ := grow_last inv hstep hstart hrun
  exact length_steps_advance hle hlast

theorem length_rows_eq_length_cols {workspace : Workspace α m n} {potentials : Potentials α m n}
    {last : Search α m n} (hrun : run costs matching workspace potentials root = .ok (col, last)) :
    last.rows.length = last.cols.length := by
  obtain ⟨row, search, hspans, hlast, -⟩ :=
    grow_last (fun _ search => Spans matching root search.toWorkspace)
      (fun _ _ _ _ _ h hnext howner => h.advance hnext howner)
      (spans_start matching workspace potentials root) hrun
  obtain ⟨-, hcols, hrows⟩ := cols_of_advance hlast
  rw [hcols, hrows, List.length_cons]
  exact hspans.length_rows

def Gained (potentials : Potentials α m n) (search : Search α m n) : Prop :=
  search.potentials.total = potentials.total + Scalar.sum search.steps.reverse

end

variable [Field K] [LinearOrder K] {costs : Grid (Exact K) m n} {u : Fin m → K} {v : Fin n → K}

theorem potentials_lower_exact {search : Search (Exact K) m n}
    (h : search.potentials = Potentials.exact u v) (hstep : 0 ≤ step) :
    (search.lower (.finite step)).potentials =
      Potentials.exact (Potentials.raised search.rows step u)
        (Potentials.raised search.cols (-step) v) := by
  -- A step of zero is skipped, which comes to the same as taking it.
  rcases hstep.lt_or_eq with hpos | rfl
  · rw [potentials_lower_of_pos search ((Exact.finite_lt 0 step).mpr hpos), h,
      Potentials.shift_exact]
  · rw [lower_of_not_pos search ((Exact.finite_lt 0 0).not.mpr (lt_irrefl 0)), h, neg_zero,
      Potentials.raised_zero, Potentials.raised_zero]

theorem sum_steps_lower_exact (search : Search (Exact K) m n) (hstep : 0 ≤ step) :
    Scalar.sum (search.lower (.finite step)).steps.reverse =
      Scalar.sum search.steps.reverse + .finite step := by
  rcases hstep.lt_or_eq with hpos | rfl
  · rw [steps_lower_of_pos search ((Exact.finite_lt 0 step).mpr hpos), List.reverse_cons,
      Scalar.sum_concat]
  · rw [lower_of_not_pos search ((Exact.finite_lt 0 0).not.mpr (lt_irrefl 0))]
    exact (Exact.add_zero _).symm

/-- The rows go up by the step once more often than the columns go down by it. -/
theorem total_lower_exact {search : Search (Exact K) m n}
    (h : search.potentials = Potentials.exact u v) (hrows : search.rows.Nodup)
    (hcols : search.cols.Nodup) (hlength : search.rows.length = search.cols.length + 1)
    (hstep : 0 ≤ step) :
    (search.lower (.finite step)).potentials.total =
      search.potentials.total + .finite step := by
  rw [potentials_lower_exact h hstep, h, Potentials.total_exact, Potentials.total_exact,
    Potentials.sum_raised hrows, Potentials.sum_raised hcols, hlength, Exact.finite_add]
  congr 1
  push_cast
  ring

theorem gained_start (workspace : Workspace (Exact K) m n) (potentials : Potentials (Exact K) m n)
    (root : Fin m) : Gained potentials (start workspace potentials root) :=
  (Exact.add_zero potentials.total).symm

theorem Gained.advance {potentials : Potentials (Exact K) m n}
    {search next : Search (Exact K) m n} {matching : Matching m n} {root : Fin m}
    (h : Gained potentials search) (hspans : Spans matching root search.toWorkspace)
    (hm : matching.Consistent) (hroot : matching.columnOf root = none)
    (hpotentials : search.potentials = Potentials.exact u v)
    (hnext : search.advance costs row = some (col, next))
    (hslack : (search.relax costs row).slack col = .finite step) (hstep : 0 ≤ step) :
    Gained potentials next := by
  obtain ⟨-, rfl⟩ := advance_eq_some.mp hnext
  have htotal : ((search.relax costs row).lower (.finite step)).potentials.total =
      search.potentials.total + .finite step :=
    total_lower_exact hpotentials (hspans.nodup_rows hm hroot) hspans.nodup_cols
      hspans.length_rows hstep
  have hsum : Scalar.sum ((search.relax costs row).lower (.finite step)).steps.reverse =
      Scalar.sum search.steps.reverse + .finite step :=
    sum_steps_lower_exact (search.relax costs row) hstep
  rw [hslack]
  calc ((search.relax costs row).lower (.finite step)).potentials.total
      = potentials.total + Scalar.sum search.steps.reverse + .finite step := by rw [htotal, h]
    _ = potentials.total +
          Scalar.sum ((search.relax costs row).lower (.finite step)).steps.reverse := by
        rw [hsum, Exact.add_assoc]

end LinearAssignment.Search
