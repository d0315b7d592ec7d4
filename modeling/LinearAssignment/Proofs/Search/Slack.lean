import LinearAssignment.Proofs.Certificate
import LinearAssignment.Proofs.Search.Steps

/-! What a search knows in exact arithmetic. The slack of a column outside the tree is the least
one that it has to a row of the tree, and its parent has it; a column of the tree is tight with its
parent. The nearest column has the least slack of all, so potentials that move by it stay feasible
and bring this column in tight. -/
namespace LinearAssignment.Search

/-- How far potentials have moved from those that a search began with: rows of the tree up, columns
of the tree down, and nothing outside it. -/
structure Moved [LE K] (tree : Workspace α m n) (u u' : Fin m → K) (v v' : Fin n → K) : Prop where
  row_le : ∀ i, u i ≤ u' i
  col_le : ∀ j, v' j ≤ v j
  row_eq : ∀ i ∉ tree.rows, u' i = u i
  col_eq : ∀ j ∉ tree.cols, v' j = v j

theorem Moved.refl [Preorder K] (tree : Workspace α m n) (u : Fin m → K) (v : Fin n → K) :
    Moved tree u u v v :=
  ⟨fun _ => le_rfl, fun _ => le_rfl, fun _ _ => rfl, fun _ _ => rfl⟩

theorem Moved.enter [LE K] {search : Search α m n} {u u' : Fin m → K} {v v' : Fin n → K}
    (h : Moved search.toWorkspace u u' v v') (row : Fin m) :
    Moved (search.enter row).toWorkspace u u' v v' where
  row_le := h.row_le
  col_le := h.col_le
  row_eq := fun i hi => h.row_eq i fun hmem => hi (List.mem_cons_of_mem _ hmem)
  col_eq := h.col_eq

theorem moved_relax [LE K] [Scalar α] {search : Search α m n} {costs : Grid α m n} {row : Fin m}
    {u u' : Fin m → K} {v v' : Fin n → K} :
    Moved (search.relax costs row).toWorkspace u u' v v' ↔ Moved search.toWorkspace u u' v v' :=
  ⟨fun h => ⟨h.row_le, h.col_le, h.row_eq, h.col_eq⟩,
    fun h => ⟨h.row_le, h.col_le, h.row_eq, h.col_eq⟩⟩

variable [Field K] [LinearOrder K] {cost : Fin m → Fin n → K} {u : Fin m → K} {v : Fin n → K}

theorem slack_nearer_le (search : Search (Exact K) m n) (best j : Fin n) :
    search.slack (search.nearer best j) ≤ search.slack best ∧
      search.slack (search.nearer best j) ≤ search.slack j := by
  unfold nearer
  split
  · rename_i hle
    exact ⟨Exact.le_refl _, hle⟩
  · rename_i hnot
    exact ⟨(Exact.le_total _ _).resolve_left hnot, Exact.le_refl _⟩

theorem slack_nearest_le {search : Search (Exact K) m n} (h : search.nearest? = some col)
    (hj : j ∉ search.cols) : search.slack col ≤ search.slack j := by
  have hfold (first : Fin n) (rest : List (Fin n)) : ∀ k ∈ first :: rest,
      search.slack (rest.foldl search.nearer first) ≤ search.slack k := by
    induction rest generalizing first with
    | nil =>
      intro k hk
      rw [List.mem_singleton.mp hk]
      exact Exact.le_refl _
    | cons next rest ih =>
      obtain ⟨hfirst, hnext⟩ := search.slack_nearer_le first next
      have hbest := ih (search.nearer first next) _ List.mem_cons_self
      intro k hk
      rcases List.mem_cons.mp hk with rfl | hk
      · exact Exact.le_trans hbest hfirst
      rcases List.mem_cons.mp hk with rfl | hk
      · exact Exact.le_trans hbest hnext
      · exact ih _ k (List.mem_cons_of_mem _ hk)
  have hout := mem_outside.mpr hj
  unfold nearest? at h
  split at h
  · cases h
  · rename_i first rest houtside
    rw [houtside] at hout
    rw [← Option.some.inj h]
    exact hfold first rest j hout

theorem slack_relax_le_slack (search : Search (Exact K) m n) (costs : Grid (Exact K) m n)
    (row : Fin m) (j : Fin n) : (search.relax costs row).slack j ≤ search.slack j := by
  rw [slack_relax]
  split
  · rename_i hcloser
    exact Exact.le_of_lt (closer_eq_true.mp hcloser).2
  · exact Exact.le_refl _

theorem slack_relax_le {search : Search (Exact K) m n} (hj : j ∉ search.cols)
    (costs : Grid (Exact K) m n) (row : Fin m) :
    (search.relax costs row).slack j ≤ search.potentials.slack costs row j := by
  rw [slack_relax]
  split
  · exact Exact.le_refl _
  · rename_i hfar
    exact Exact.not_lt.mp fun hlt => hfar (closer_eq_true.mpr ⟨hj, hlt⟩)

/-- What a search knows of the columns once the newest row has been compared with them. -/
structure Aligned (cost : Fin m → Fin n → K) (search : Search (Exact K) m n) (u : Fin m → K)
    (v : Fin n → K) : Prop where
  potentials_eq : search.potentials = Potentials.exact u v
  attained : ∀ j ∉ search.cols, ∃ i ∈ search.rows,
    search.parent j = i.val ∧ search.slack j = .finite (cost i j - u i - v j)
  least : ∀ j ∉ search.cols, ∀ i ∈ search.rows,
    search.slack j ≤ .finite (cost i j - u i - v j)
  tight : ∀ j ∈ search.cols, ∃ i ∈ search.rows, search.parent j = i.val ∧ u i + v j = cost i j

theorem slack_relax_start_exact (cost : Fin m → Fin n → K) (workspace : Workspace (Exact K) m n)
    (u : Fin m → K) (v : Fin n → K) (root : Fin m) (j : Fin n) :
    ((start workspace (Potentials.exact u v) root).relax (Grid.exact cost) root).slack j =
      .finite (cost root j - u root - v j) := by
  rw [slack_relax_start (Potentials.slack_exact_lt_infinity u v cost root j),
    Potentials.slack_exact]

theorem aligned_start (cost : Fin m → Fin n → K) (workspace : Workspace (Exact K) m n)
    (u : Fin m → K) (v : Fin n → K) (root : Fin m) :
    Aligned cost ((start workspace (Potentials.exact u v) root).relax (Grid.exact cost) root)
      u v := by
  have hslack := slack_relax_start_exact cost workspace u v root
  constructor
  case potentials_eq => rfl
  case attained =>
    intro j _
    have hbelow := Potentials.slack_exact_lt_infinity u v cost root j
    exact ⟨root, List.mem_cons_self, parent_relax_start hbelow workspace, hslack j⟩
  case least =>
    intro j _ i hi
    rw [hslack, List.mem_singleton.mp hi]
    exact Exact.le_refl _
  case tight =>
    intro j hj
    cases hj

theorem Aligned.relax {search : Search (Exact K) m n} (h : Aligned cost search u v)
    (row : Fin m) : Aligned cost ((search.enter row).relax (Grid.exact cost) row) u v := by
  have hslack (j : Fin n) : (search.enter row).potentials.slack (Grid.exact cost) row j =
      .finite (cost row j - u row - v j) := by
    rw [potentials_enter, h.potentials_eq, Potentials.slack_exact]
  constructor
  case potentials_eq => exact h.potentials_eq
  case attained =>
    intro j hj
    rw [slack_relax, parent_relax, rows_relax, rows_enter]
    split
    · exact ⟨row, List.mem_cons_self, rfl, hslack j⟩
    · obtain ⟨i, hi, hparent, heq⟩ := h.attained j hj
      exact ⟨i, List.mem_cons_of_mem _ hi, hparent, heq⟩
  case least =>
    intro j hj i hi
    rcases List.mem_cons.mp hi with rfl | hi
    · have hout : j ∉ (search.enter i).cols := hj
      rw [← hslack]
      exact slack_relax_le hout (Grid.exact cost) i
    · exact Exact.le_trans (slack_relax_le_slack _ _ row j) (h.least j hj i hi)
  case tight =>
    intro j hj
    obtain ⟨i, hi, hparent, heq⟩ := h.tight j hj
    refine ⟨i, List.mem_cons_of_mem _ hi, ?_, heq⟩
    rw [cols_relax] at hj
    rw [parent_relax_of_mem hj]
    exact hparent

theorem slack_lower_exact {search : Search (Exact K) m n} (hstep : 0 ≤ step)
    (hj : j ∉ search.cols) :
    (search.lower (.finite step)).slack j = search.slack j - .finite step := by
  rcases hstep.lt_or_eq with hpos | rfl
  · rw [slack_lower_of_pos search ((Exact.finite_lt 0 step).mpr hpos)]
    simp [hj]
  · rw [lower_of_not_pos search ((Exact.finite_lt 0 0).not.mpr (lt_irrefl 0)),
      Exact.sub_finite_zero]

variable {matching : Matching m n}

structure Known (cost : Fin m → Fin n → K) (matching : Matching m n) (u : Fin m → K)
    (v : Fin n → K) (search : Search (Exact K) m n) (u' : Fin m → K) (v' : Fin n → K) : Prop where
  gained : Gained (Potentials.exact u v) search
  aligned : Aligned cost search u' v'
  certified : Certificate cost matching u' v'
  moved : Moved search.toWorkspace u u' v v'

theorem known_start (hcert : Certificate cost matching u v) (workspace : Workspace (Exact K) m n)
    (root : Fin m) :
    Known cost matching u v
      ((start workspace (Potentials.exact u v) root).relax (Grid.exact cost) root) u v where
  gained := gained_start workspace _ root
  aligned := aligned_start cost workspace u v root
  certified := hcert
  moved := Moved.refl _ u v

theorem Known.relax {search : Search (Exact K) m n} {u' : Fin m → K} {v' : Fin n → K}
    (h : Known cost matching u v search u' v') (row : Fin m) :
    Known cost matching u v ((search.enter row).relax (Grid.exact cost) row) u' v' where
  gained := h.gained
  aligned := h.aligned.relax row
  certified := h.certified
  moved := moved_relax.mpr (h.moved.enter row)

variable [IsStrictOrderedRing K] {root : Fin m}

theorem Aligned.visit {search : Search (Exact K) m n} (h : Aligned cost search u v)
    (hcol : search.nearest? = some col) (hslack : search.slack col = .finite step)
    (hstep : 0 ≤ step) :
    Aligned cost ((search.lower (.finite step)).visit col)
      (Potentials.raised search.rows step u) (Potentials.raised search.cols (-step) v) := by
  have hout : col ∉ search.cols := mem_outside.mp (mem_outside_of_nearest? hcol)
  constructor
  case potentials_eq => rw [potentials_visit, potentials_lower_exact h.potentials_eq hstep]
  case attained =>
    intro j hj
    rw [cols_visit, cols_lower, List.mem_cons, not_or] at hj
    obtain ⟨i, hi, hparent, heq⟩ := h.attained j hj.2
    rw [rows_visit, rows_lower, parent_visit, parent_lower, slack_visit,
      slack_lower_exact hstep hj.2, heq]
    refine ⟨i, hi, hparent, ?_⟩
    rw [Potentials.raised_of_mem hi, Potentials.raised_of_not_mem hj.2, Exact.finite_sub]
    congr 1
    ring
  case least =>
    intro j hj i hi
    rw [cols_visit, cols_lower, List.mem_cons, not_or] at hj
    rw [rows_visit, rows_lower] at hi
    rw [slack_visit, slack_lower_exact hstep hj.2, Potentials.raised_of_mem hi,
      Potentials.raised_of_not_mem hj.2]
    have hle := Exact.sub_le_finite_sub (h.least j hj.2 i hi) step
    convert hle using 2
    ring
  case tight =>
    intro j hj
    rw [cols_visit, cols_lower] at hj
    rw [rows_visit, rows_lower, parent_visit, parent_lower]
    -- The step is the slack of the column that enters; a row and a column of the tree move by it
    -- in opposite directions.
    rcases List.mem_cons.mp hj with rfl | hj
    · obtain ⟨i, hi, hparent, heq⟩ := h.attained j hout
      cases hslack.symm.trans heq
      refine ⟨i, hi, hparent, ?_⟩
      rw [Potentials.raised_of_mem hi, Potentials.raised_of_not_mem hout]
      ring
    · obtain ⟨i, hi, hparent, heq⟩ := h.tight j hj
      refine ⟨i, hi, hparent, ?_⟩
      rw [Potentials.raised_of_mem hi, Potentials.raised_of_mem hj, ← heq]
      ring

theorem Aligned.advance {search next : Search (Exact K) m n}
    (h : Aligned cost (search.relax (Grid.exact cost) row) u v)
    (hspans : Spans matching root search.toWorkspace) (hm : matching.Consistent)
    (hroot : matching.columnOf root = none) (hcert : Certificate cost matching u v)
    (hnext : search.advance (Grid.exact cost) row = some (col, next)) :
    ∃ step, 0 ≤ step ∧ (search.relax (Grid.exact cost) row).slack col = .finite step ∧
      Aligned cost next (Potentials.raised search.rows step u)
        (Potentials.raised search.cols (-step) v) ∧
      Certificate cost matching (Potentials.raised search.rows step u)
        (Potentials.raised search.cols (-step) v) := by
  obtain ⟨hnearest, rfl⟩ := advance_eq_some.mp hnext
  have hout : col ∉ search.cols := (cols_of_advance hnext).1
  obtain ⟨i, hi, -, hslack⟩ := h.attained col hout
  have hstep : 0 ≤ cost i col - u i - v col := by linarith [hcert.feasible i col]
  refine ⟨_, hstep, hslack, ?_, hcert.raised hstep ?_ ?_ ?_⟩
  · rw [hslack]
    exact h.visit hnearest hslack hstep
  · intro k hk j hj
    have hle := Exact.le_trans (slack_nearest_le hnearest hj) (h.least j hj k hk)
    rwa [hslack, Exact.finite_le] at hle
  · exact fun k j hkj => hspans.row_mem_iff_col_mem hm hroot hkj
  · intro j hj hfree
    obtain ⟨owner, howner⟩ := hspans.exists_owner hj
    cases hfree.symm.trans howner

theorem Moved.advance {search next : Search (Exact K) m n} {costs : Grid (Exact K) m n}
    {u' : Fin m → K} {v' : Fin n → K} (h : Moved search.toWorkspace u u' v v')
    (hnext : search.advance costs row = some (col, next)) (hstep : 0 ≤ step) :
    Moved next.toWorkspace u (Potentials.raised search.rows step u') v
      (Potentials.raised search.cols (-step) v') := by
  obtain ⟨-, hcols, hrows⟩ := cols_of_advance hnext
  constructor
  case row_le =>
    intro i
    have hle := h.row_le i
    unfold Potentials.raised
    split <;> linarith
  case col_le =>
    intro j
    have hle := h.col_le j
    unfold Potentials.raised
    split <;> linarith
  case row_eq =>
    intro i hi
    rw [hrows] at hi
    rw [Potentials.raised_of_not_mem hi, h.row_eq i hi]
  case col_eq =>
    intro j hj
    rw [hcols, List.mem_cons, not_or] at hj
    rw [Potentials.raised_of_not_mem hj.2, h.col_eq j hj.2]

theorem Known.advance {search next : Search (Exact K) m n} {u' : Fin m → K} {v' : Fin n → K}
    (h : Known cost matching u v (search.relax (Grid.exact cost) row) u' v')
    (hspans : Spans matching root search.toWorkspace) (hm : matching.Consistent)
    (hroot : matching.columnOf root = none)
    (hnext : search.advance (Grid.exact cost) row = some (col, next)) :
    ∃ step, 0 ≤ step ∧ (search.relax (Grid.exact cost) row).slack col = .finite step ∧
      Known cost matching u v next (Potentials.raised search.rows step u')
        (Potentials.raised search.cols (-step) v') := by
  obtain ⟨step, hstep, hslack, haligned, hcert⟩ :=
    h.aligned.advance hspans hm hroot h.certified hnext
  have hgained : Gained (Potentials.exact u v) search := h.gained
  exact ⟨step, hstep, hslack,
    hgained.advance hspans hm hroot h.aligned.potentials_eq hnext hslack hstep,
    haligned, hcert, (moved_relax.mp h.moved).advance hnext hstep⟩

/-- The potentials that a search ends with certify the matching before the path is flipped, and
every column of the tree is tight with its parent under them. Outside the tree they are those that
the search began with, and their total differs by the steps. -/
theorem exists_aligned_of_run {workspace : Workspace (Exact K) m n} {last : Search (Exact K) m n}
    (hm : matching.Consistent) (hroot : matching.columnOf root = none)
    (hcert : Certificate cost matching u v)
    (hrun : run (Grid.exact cost) matching workspace (Potentials.exact u v) root =
      .ok (col, last)) :
    Gained (Potentials.exact u v) last ∧
      ∃ u' v', Aligned cost last u' v' ∧ Certificate cost matching u' v' ∧
        Moved last.toWorkspace u u' v v' := by
  let inv : Fin m → Search (Exact K) m n → Prop := fun row search =>
    Spans matching root search.toWorkspace ∧
      ∃ u' v', Known cost matching u v (search.relax (Grid.exact cost) row) u' v'
  have hstart : inv root (start workspace (Potentials.exact u v) root) :=
    ⟨spans_start matching workspace _ root, u, v, known_start hcert workspace root⟩
  have hstep : ∀ row search col next owner, inv row search →
      search.advance (Grid.exact cost) row = some (col, next) → matching.rowOf col = some owner →
        inv owner (next.enter owner) := by
    rintro row search col next owner ⟨hspans, u', v', hknown⟩ hnext howner
    obtain ⟨step, -, -, hknown'⟩ := hknown.advance hspans hm hroot hnext
    exact ⟨hspans.advance hnext howner, _, _, hknown'.relax owner⟩
  obtain ⟨row, search, ⟨hspans, u', v', hknown⟩, hlast, -⟩ := grow_last inv hstep hstart hrun
  obtain ⟨step, -, -, hknown'⟩ := hknown.advance hspans hm hroot hlast
  exact ⟨hknown'.gained, _, _, hknown'.aligned, hknown'.certified, hknown'.moved⟩

end LinearAssignment.Search
