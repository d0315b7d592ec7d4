import LinearAssignment.Proofs.Range
import LinearAssignment.Proofs.Search.Slack

/-! The range of the numbers in a search, round by round. The root goes up by every step of the
search, so that the steps add up to what it has risen by. -/
namespace LinearAssignment.Search

variable [Field K] [LinearOrder K] {cost : Fin m → Fin n → K} {u : Fin m → K} {v : Fin n → K}
  {S : AddSubgroup K} {matching : Matching m n} {root : Fin m}

structure Measured (S : AddSubgroup K) (root : Fin m) (u : Fin m → K)
    (search : Search (Exact K) m n) (u' : Fin m → K) (v' : Fin n → K) : Prop where
  row_mem : ∀ i, u' i ∈ S
  col_mem : ∀ j, v' j ∈ S
  settled : ∀ j ∈ search.cols, search.slack j = .finite 0
  root_eq : Scalar.sum search.steps.reverse = .finite (u' root - u root)

theorem Aligned.shows {search : Search (Exact K) m n} (h : Aligned cost search u v)
    (hsettled : ∀ j ∈ search.cols, search.slack j = .finite 0) :
    search.toWorkspace.Shows cost u v := by
  intro j
  by_cases hj : j ∈ search.cols
  · exact .inr (.inl (hsettled j hj))
  · obtain ⟨i, -, -, hi⟩ := h.attained j hj
    exact .inr (.inr ⟨i, hi⟩)

theorem measured_start (workspace : Workspace (Exact K) m n) (root : Fin m)
    (hrow : ∀ i, u i ∈ S) (hcol : ∀ j, v j ∈ S) :
    Measured S root u
      ((start workspace (Potentials.exact u v) root).relax (Grid.exact cost) root) u v where
  row_mem := hrow
  col_mem := hcol
  settled := fun j hj => by cases hj
  root_eq := by
    rw [sub_self]
    rfl

theorem Measured.relax {search : Search (Exact K) m n} {u' : Fin m → K}
    {v' : Fin n → K} (h : Measured S root u search u' v') (row : Fin m) :
    Measured S root u ((search.enter row).relax (Grid.exact cost) row) u' v' where
  row_mem := h.row_mem
  col_mem := h.col_mem
  settled := by
    intro j hj
    rw [cols_relax] at hj
    rw [slack_relax_of_mem hj]
    exact h.settled j hj
  root_eq := h.root_eq

theorem Known.confined {search : Search (Exact K) m n} {u' : Fin m → K} {v' : Fin n → K}
    (h : Known cost matching u v search u' v') (hmeasured : Measured S root u search u' v')
    (hge : ∀ i, ∃ j, cost i j ≤ u i) (hfree : matching.rowOf free = none) :
    Confined S cost matching u' v' where
  toCertificate := h.certified
  row_ge := by
    intro i
    obtain ⟨j, hj⟩ := hge i
    exact ⟨j, hj.trans (h.moved.row_le i)⟩
  row_le := by
    intro i
    have hfeasible := h.certified.feasible i free
    rw [h.certified.free free hfree, add_zero] at hfeasible
    exact ⟨free, hfeasible⟩
  row_mem := hmeasured.row_mem
  col_mem := hmeasured.col_mem

theorem Measured.advance {search next : Search (Exact K) m n} {u' : Fin m → K} {v' : Fin n → K}
    (h : Measured S root u (search.relax (Grid.exact cost) row) u' v')
    (haligned : Aligned cost (search.relax (Grid.exact cost) row) u' v')
    (hcost : ∀ i j, cost i j ∈ S) (hroot : root ∈ search.rows)
    (hnext : search.advance (Grid.exact cost) row = some (col, next)) (hstep : 0 ≤ step)
    (hslack : (search.relax (Grid.exact cost) row).slack col = .finite step) :
    Measured S root u next (Potentials.raised search.rows step u')
      (Potentials.raised search.cols (-step) v') := by
  obtain ⟨-, rfl⟩ := advance_eq_some.mp hnext
  have hcol : col ∉ (search.relax (Grid.exact cost) row).cols := (cols_of_advance hnext).1
  have hmem : step ∈ S := by
    obtain ⟨i, -, -, hi⟩ := haligned.attained col hcol
    cases hslack.symm.trans hi
    exact S.sub_mem (S.sub_mem (hcost i col) (h.row_mem i)) (h.col_mem col)
  rw [hslack]
  constructor
  case row_mem => exact Potentials.raised_mem h.row_mem hmem
  case col_mem => exact Potentials.raised_mem h.col_mem (S.neg_mem hmem)
  case settled =>
    intro j hj
    rw [cols_visit, cols_lower] at hj
    rw [slack_visit]
    -- The step uses up the slack of the column that enters and leaves the older ones alone.
    rcases List.mem_cons.mp hj with rfl | hj
    · rw [slack_lower_exact hstep hcol, hslack, Exact.finite_sub, sub_self]
    · rw [slack_lower_of_mem hj]
      exact h.settled j hj
  case root_eq =>
    have hsum := sum_steps_lower_exact (search.relax (Grid.exact cost) row) hstep
    rw [h.root_eq, Exact.finite_add] at hsum
    rw [Potentials.raised_of_mem hroot, add_sub_right_comm]
    exact hsum

structure Round.Confined (S : AddSubgroup K) (cost : Fin m → Fin n → K) (matching : Matching m n)
    (root : Fin m) (u : Fin m → K) (round : Round (Exact K) m n) (u' u'' : Fin m → K)
    (v' v'' : Fin n → K) : Prop where
  before_eq : round.before.potentials = Potentials.exact u' v'
  after_eq : round.after.potentials = Potentials.exact u'' v''
  before : LinearAssignment.Confined S cost matching u' v'
  after : LinearAssignment.Confined S cost matching u'' v''
  before_shows : round.before.toWorkspace.Shows cost u' v'
  compared_shows : (round.compared (Grid.exact cost)).toWorkspace.Shows cost u' v'
  after_shows : round.after.toWorkspace.Shows cost u'' v''
  step_eq : round.step (Grid.exact cost) = .finite (u'' root - u' root)
  root_le : u' root ≤ u'' root
  sum_eq : Scalar.sum round.after.steps.reverse = .finite (u'' root - u root)
  row_le : ∀ i, u i ≤ u'' i

/-- All numbers of a round, before its row is compared, once it is, and with its column in the
tree. -/
structure Round.Ranged (ranges : Ranges K m) (costs : Grid (Exact K) m n)
    (round : Round (Exact K) m n) : Prop where
  before : LinearAssignment.Ranged ranges costs round.before.potentials round.before.toWorkspace
  compared : LinearAssignment.Ranged ranges costs (round.compared costs).potentials
    (round.compared costs).toWorkspace
  after : LinearAssignment.Ranged ranges costs round.after.potentials round.after.toWorkspace
  step : round.step costs ∈ Exact.finite '' ranges.step

theorem Round.Ranged.mono {ranges other : Ranges K m} {costs : Grid (Exact K) m n}
    {round : Round (Exact K) m n} (h : round.Ranged ranges costs)
    (hwithin : ranges.Within other) : round.Ranged other costs where
  before := h.before.mono hwithin
  compared := h.compared.mono hwithin
  after := h.after.mono hwithin
  step := Set.image_mono hwithin.step h.step

variable [IsStrictOrderedRing K]

/-- As long as a column is free, every round of a search goes from confined potentials to confined
ones, and its step is what the root rises by. -/
theorem exists_confined_of_mem_history {workspace : Workspace (Exact K) m n}
    {round : Round (Exact K) m n} (hm : matching.Consistent)
    (hroot : matching.columnOf root = none) (hfree : matching.rowOf free = none)
    (hcost : ∀ i j, cost i j ∈ S) (hconfined : Confined S cost matching u v)
    (hround : round ∈ history (Grid.exact cost) matching workspace (Potentials.exact u v) root) :
    ∃ u' u'' v' v'', round.Confined S cost matching root u u' u'' v' v'' := by
  let inv : Fin m → Search (Exact K) m n → Prop := fun row search =>
    Spans matching root search.toWorkspace ∧ ∃ u' v', search.toWorkspace.Shows cost u' v' ∧
      Known cost matching u v (search.relax (Grid.exact cost) row) u' v' ∧
      Measured S root u (search.relax (Grid.exact cost) row) u' v'
  have hstart : inv root (start workspace (Potentials.exact u v) root) :=
    ⟨spans_start matching workspace _ root, u, v, fun j => .inl (workspace.slack_restart root j),
      known_start hconfined.toCertificate workspace root,
      measured_start workspace root hconfined.row_mem hconfined.col_mem⟩
  have hstep : ∀ row search col next owner, inv row search →
      search.advance (Grid.exact cost) row = some (col, next) → matching.rowOf col = some owner →
        inv owner (next.enter owner) := by
    rintro row search col next owner ⟨hspans, u', v', -, hknown, hmeasured⟩ hnext howner
    obtain ⟨step, hstep, hslack, hknown'⟩ := hknown.advance hspans hm hroot hnext
    have hmeasured' :=
      hmeasured.advance hknown.aligned hcost hspans.root_mem hnext hstep hslack
    exact ⟨hspans.advance hnext howner, _, _, hknown'.aligned.shows hmeasured'.settled,
      hknown'.relax owner, hmeasured'.relax owner⟩
  obtain ⟨⟨hspans, u', v', hshows, hknown, hmeasured⟩, hnext⟩ :=
    invariant_of_mem_rounds inv hstep hstart hround
  obtain ⟨step, hstep, hslack, hknown'⟩ := hknown.advance hspans hm hroot hnext
  have hmeasured' := hmeasured.advance hknown.aligned hcost hspans.root_mem hnext hstep hslack
  have hrise : Potentials.raised round.before.rows step u' root = u' root + step :=
    Potentials.raised_of_mem hspans.root_mem step u'
  exact ⟨u', _, v', _,
    { before_eq := hknown.aligned.potentials_eq
      after_eq := hknown'.aligned.potentials_eq
      before := hknown.confined hmeasured hconfined.row_ge hfree
      after := hknown'.confined hmeasured' hconfined.row_ge hfree
      before_shows := hshows
      compared_shows := hknown.aligned.shows hmeasured.settled
      after_shows := hknown'.aligned.shows hmeasured'.settled
      step_eq := by
        rw [hrise, add_sub_cancel_left]
        exact hslack
      root_le := by
        rw [hrise]
        exact le_add_of_nonneg_right hstep
      sum_eq := hmeasured'.root_eq
      row_le := hknown'.moved.row_le }⟩

theorem Round.Confined.ranged {round : Round (Exact K) m n} {u' u'' : Fin m → K}
    {v' v'' : Fin n → K} (h : round.Confined S cost matching root u u' u'' v' v'')
    (hm : matching.Consistent) (hle : lo ≤ hi) (hcost : ∀ i j, cost i j ∈ Set.Icc lo hi)
    (hmem : ∀ i j, cost i j ∈ S) :
    round.Ranged ((Ranges.between cost lo hi).inter S) (Grid.exact cost) where
  before := h.before.ranged hm hle hcost hmem h.before_eq h.before_shows
  compared := h.before.ranged hm hle hcost hmem h.before_eq h.compared_shows
  after := h.after.ranged hm hle hcost hmem h.after_eq h.after_shows
  step := by
    rw [h.step_eq]
    exact ⟨_, ⟨h.after.sub_mem_Icc h.before hcost h.root_le,
      S.sub_mem (h.after.row_mem root) (h.before.row_mem root)⟩, rfl⟩

end LinearAssignment.Search
