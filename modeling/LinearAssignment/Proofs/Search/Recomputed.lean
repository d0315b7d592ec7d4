import LinearAssignment.Proofs.Search.Plain
import LinearAssignment.Proofs.Search.Slack

/-! The search with a workspace and the one that works out every slack again agree round by round,
whether the potentials are feasible or not. A step takes the same off all slacks between rows of the
tree and a column outside it, and so leaves the first row with the least one where it was. -/
namespace LinearAssignment.Search

variable [Field K] [LinearOrder K]

/-- A search whose workspace holds what the search without one works out. -/
structure Mirrors (costs : Grid (Exact K) m n) (search : Search (Exact K) m n)
    (plain : PlainSearch (Exact K) m n) : Prop where
  potentials_eq : plain.potentials = search.potentials
  rows_eq : plain.rows = search.rows.reverse
  cols_eq : plain.cols = search.cols
  slack_eq : ∀ j ∉ search.cols, search.slack j = plain.gap costs j
  holder_eq : ∀ j ∉ search.cols, ∃ i, plain.holder? costs j = some i ∧ search.parent j = i.val
  parent_eq : ∀ j ∈ search.cols, plain.parent j = search.parent j

variable {cost : Fin m → Fin n → K} {u : Fin m → K} {v : Fin n → K}

theorem mirrors_start (cost : Fin m → Fin n → K) (workspace : Workspace (Exact K) m n)
    (u : Fin m → K) (v : Fin n → K) (root : Fin m) :
    Mirrors (Grid.exact cost)
      ((start workspace (Potentials.exact u v) root).relax (Grid.exact cost) root)
      ⟨Potentials.exact u v, [root], []⟩ := by
  have hbelow := Potentials.slack_exact_lt_infinity u v cost root
  have hgap (j : Fin n) : PlainSearch.gap (Grid.exact cost) ⟨Potentials.exact u v, [root], []⟩ j =
      (Potentials.exact u v).slack (Grid.exact cost) root j :=
    if_pos (hbelow j)
  constructor
  case potentials_eq => rfl
  case rows_eq => rfl
  case cols_eq => rfl
  case slack_eq =>
    intro j _
    rw [slack_relax_start (hbelow j), hgap]
  case holder_eq =>
    intro j _
    exact ⟨root, List.find?_cons_of_pos (decide_eq_true (hgap j).symm),
      parent_relax_start (hbelow j) workspace⟩
  case parent_eq =>
    intro j hj
    cases hj

theorem Mirrors.enter {costs : Grid (Exact K) m n} {search : Search (Exact K) m n}
    {plain : PlainSearch (Exact K) m n} (h : Mirrors costs search plain) (row : Fin m) :
    Mirrors costs ((search.enter row).relax costs row) (plain.enter row) := by
  have hcloser (j : Fin n) (hj : j ∉ search.cols) :
      (search.enter row).closer costs row j = true ↔
        plain.potentials.slack costs row j < plain.gap costs j := by
    rw [closer_eq_true, ← h.slack_eq j hj, h.potentials_eq]
    exact and_iff_right hj
  constructor
  case potentials_eq => exact h.potentials_eq
  case rows_eq =>
    rw [rows_relax, rows_enter, List.reverse_cons, ← h.rows_eq]
    rfl
  case cols_eq => exact h.cols_eq
  case slack_eq =>
    intro j hj
    rw [slack_relax, PlainSearch.gap_enter, slack_enter, h.slack_eq j hj, potentials_enter,
      ← h.potentials_eq]
    exact if_congr (hcloser j hj) rfl rfl
  case holder_eq =>
    intro j hj
    obtain ⟨holder, hholder, hparent⟩ := h.holder_eq j hj
    rw [parent_relax, PlainSearch.holder?_enter hholder, parent_enter]
    by_cases hlt : plain.potentials.slack costs row j < plain.gap costs j
    · exact ⟨row, if_pos hlt, if_pos ((hcloser j hj).mpr hlt)⟩
    · exact ⟨holder, if_neg hlt, (if_neg ((hcloser j hj).not.mpr hlt)).trans hparent⟩
  case parent_eq =>
    intro j hj
    rw [cols_relax] at hj
    rw [parent_relax_of_mem hj]
    exact h.parent_eq j hj

/-- A step, or none if it is not positive, takes the same off every slack between a row of the tree
and a column outside it, whether remembered or worked out. -/
theorem exists_taken {search : Search (Exact K) m n} (cost : Fin m → Fin n → K)
    (hpotentials : search.potentials = Potentials.exact u v) (step : K) :
    ∃ taken, (∀ i ∈ search.rows, ∀ j ∉ search.cols,
        (search.lower (.finite step)).potentials.slack (Grid.exact cost) i j =
          search.potentials.slack (Grid.exact cost) i j - .finite taken) ∧
      ∀ j ∉ search.cols,
        (search.lower (.finite step)).slack j = search.slack j - .finite taken := by
  by_cases hpos : (0 : Exact K) < .finite step
  · refine ⟨step, fun i hi j hj => ?_, fun j hj => ?_⟩
    · rw [potentials_lower_of_pos search hpos, hpotentials, Potentials.shift_exact,
        Potentials.slack_exact, Potentials.slack_exact, Potentials.raised_of_mem hi,
        Potentials.raised_of_not_mem hj, Exact.finite_sub]
      congr 1
      ring
    · rw [slack_lower_of_pos search hpos]
      simp [hj]
  · rw [lower_of_not_pos search hpos]
    exact ⟨0, fun _ _ _ _ => (Exact.sub_finite_zero _).symm,
      fun _ _ => (Exact.sub_finite_zero _).symm⟩

theorem exists_potentials_lower {search : Search (Exact K) m n}
    (h : search.potentials = Potentials.exact u v) (step : K) :
    ∃ u' v', (search.lower (.finite step)).potentials = Potentials.exact u' v' := by
  by_cases hpos : (0 : Exact K) < .finite step
  · rw [potentials_lower_of_pos search hpos, h, Potentials.shift_exact]
    exact ⟨_, _, rfl⟩
  · rw [lower_of_not_pos search hpos, h]
    exact ⟨u, v, rfl⟩

theorem slack_lower_eq_zero {search : Search (Exact K) m n} {i : Fin m} {col : Fin n}
    (hpotentials : search.potentials = Potentials.exact u v) (hi : i ∈ search.rows)
    (hcol : col ∉ search.cols)
    (hslack : search.potentials.slack (Grid.exact cost) i col = search.slack col)
    (hpos : 0 < search.slack col) :
    (search.lower (search.slack col)).potentials.slack (Grid.exact cost) i col = 0 := by
  rw [potentials_lower_of_pos search hpos, ← hslack, hpotentials, Potentials.slack_exact,
    Potentials.shift_exact, Potentials.slack_exact, Potentials.raised_of_mem hi,
    Potentials.raised_of_not_mem hcol]
  change Exact.finite _ = Exact.finite 0
  congr 1
  ring

theorem shift_reverse (potentials : Potentials (Exact K) m n) (rows : List (Fin m))
    (cols : List (Fin n)) (step : Exact K) :
    potentials.shift rows.reverse cols step = potentials.shift rows cols step := by
  apply Potentials.ext
  · intro i
    simp only [Potentials.row_shift, List.contains_iff_mem, List.mem_reverse]
  · intro j
    rw [Potentials.col_shift, Potentials.col_shift]

theorem Mirrors.potentials_select {costs : Grid (Exact K) m n} {search : Search (Exact K) m n}
    {plain : PlainSearch (Exact K) m n} {col : Fin n} (h : Mirrors costs search plain)
    (hcol : col ∉ search.cols) (holder : Fin m) :
    (plain.select costs col holder).potentials =
      (search.lower (search.slack col)).potentials := by
  have hselect : (plain.select costs col holder).potentials =
      if 0 < plain.gap costs col then
        plain.potentials.shift plain.rows plain.cols (plain.gap costs col)
      else plain.potentials := rfl
  rw [hselect, ← h.slack_eq col hcol, h.rows_eq, h.cols_eq, h.potentials_eq, shift_reverse]
  by_cases hpos : 0 < search.slack col
  · rw [if_pos hpos, potentials_lower_of_pos search hpos]
  · rw [if_neg hpos, lower_of_not_pos search hpos]

/-- What the workspace holds when a column is selected is what the tree and the potentials alone
give: for each column outside the tree the least slack to a row of the tree, and the row that came
first among those that have it. -/
structure Round.Recomputed (costs : Grid (Exact K) m n) (round : Round (Exact K) m n) : Prop where
  slack_eq : ∀ j ∉ round.before.cols, (round.compared costs).slack j =
    Scalar.minimum (round.before.rows.reverse.map fun i =>
      round.before.potentials.slack costs i j)
  parent_eq : ∀ j ∉ round.before.cols, ∃ i,
    round.before.rows.reverse.find? (fun i =>
      round.before.potentials.slack costs i j = (round.compared costs).slack j) = some i ∧
    (round.compared costs).parent j = i.val
  col_not_mem : round.col ∉ round.before.cols
  tight : 0 < round.step costs → ∃ i ∈ round.before.rows,
    (round.compared costs).parent round.col = i.val ∧
      round.after.potentials.slack costs i round.col = 0

theorem Mirrors.recomputed {round : Round (Exact K) m n} {plain : PlainSearch (Exact K) m n}
    (h : Mirrors (Grid.exact cost) (round.compared (Grid.exact cost)) plain)
    (hpotentials : round.before.potentials = Potentials.exact u v)
    (hnext : round.before.advance (Grid.exact cost) round.row = some (round.col, round.after)) :
    round.Recomputed (Grid.exact cost) := by
  have hrows : plain.rows = round.before.rows.reverse := h.rows_eq
  have hgap (j : Fin n) : plain.gap (Grid.exact cost) j =
      Scalar.minimum (round.before.rows.reverse.map fun i =>
        round.before.potentials.slack (Grid.exact cost) i j) := by
    rw [PlainSearch.gap, hrows, h.potentials_eq]
    rfl
  have hcol := (cols_of_advance hnext).1
  constructor
  case slack_eq => exact fun j hj => (h.slack_eq j hj).trans (hgap j)
  case parent_eq =>
    intro j hj
    obtain ⟨i, hi, hij⟩ := h.holder_eq j hj
    rw [PlainSearch.holder?, hrows, h.potentials_eq, ← h.slack_eq j hj] at hi
    exact ⟨i, hi, hij⟩
  case col_not_mem => exact hcol
  case tight =>
    intro hpos
    obtain ⟨i, hi, hij⟩ := h.holder_eq round.col hcol
    have hslack := PlainSearch.slack_holder hi
    rw [h.potentials_eq, ← h.slack_eq round.col hcol] at hslack
    have hmem : i ∈ plain.rows := List.mem_of_find?_eq_some hi
    rw [hrows, List.mem_reverse] at hmem
    have hcompared : (round.compared (Grid.exact cost)).potentials = Potentials.exact u v :=
      hpotentials
    refine ⟨i, hmem, hij, ?_⟩
    rw [(advance_eq_some.mp hnext).2]
    exact slack_lower_eq_zero hcompared hmem hcol hslack hpos

variable [IsStrictOrderedRing K]

theorem Mirrors.select {search : Search (Exact K) m n} {plain : PlainSearch (Exact K) m n}
    {col : Fin n} {holder : Fin m} (h : Mirrors (Grid.exact cost) search plain)
    (hpotentials : search.potentials = Potentials.exact u v) (hcol : col ∉ search.cols)
    (hholder : plain.holder? (Grid.exact cost) col = some holder)
    (hslack : search.slack col = .finite step) :
    Mirrors (Grid.exact cost) ((search.lower (search.slack col)).visit col)
      (plain.select (Grid.exact cost) col holder) := by
  obtain ⟨taken, hworked, hremembered⟩ := exists_taken cost hpotentials step
  rw [← hslack, ← h.potentials_select hcol holder] at hworked
  rw [← hslack] at hremembered
  have hslacks (j : Fin n) (hj : j ∉ search.cols) : ∀ i ∈ plain.rows,
      (plain.select (Grid.exact cost) col holder).potentials.slack (Grid.exact cost) i j =
        plain.potentials.slack (Grid.exact cost) i j - .finite taken := by
    intro i hi
    rw [h.rows_eq, List.mem_reverse] at hi
    rw [hworked i hi j hj, h.potentials_eq]
  have hgap (j : Fin n) (hj : j ∉ search.cols) :
      (plain.select (Grid.exact cost) col holder).gap (Grid.exact cost) j =
        plain.gap (Grid.exact cost) j - .finite taken :=
    (congrArg Scalar.minimum (List.map_congr_left (hslacks j hj))).trans
      (Exact.minimum_sub _ plain.rows taken)
  constructor
  case potentials_eq => exact h.potentials_select hcol holder
  case rows_eq =>
    rw [rows_visit, rows_lower, ← h.rows_eq]
    rfl
  case cols_eq =>
    rw [cols_visit, cols_lower, ← h.cols_eq]
    rfl
  case slack_eq =>
    intro j hj
    rw [cols_visit, cols_lower, List.mem_cons, not_or] at hj
    rw [slack_visit, hremembered j hj.2, h.slack_eq j hj.2, hgap j hj.2]
  case holder_eq =>
    intro j hj
    rw [cols_visit, cols_lower, List.mem_cons, not_or] at hj
    obtain ⟨i, hi, hparent⟩ := h.holder_eq j hj.2
    refine ⟨i, ?_, by rw [parent_visit, parent_lower, hparent]⟩
    rw [← hi]
    apply List.find?_congr
    intro k hk
    rw [hslacks j hj.2 k hk, hgap j hj.2]
    exact decide_eq_decide.mpr Exact.sub_finite_inj
  case parent_eq =>
    intro j hj
    rw [cols_visit, cols_lower, List.mem_cons] at hj
    rw [parent_visit, parent_lower]
    by_cases hjcol : col = j
    · subst hjcol
      obtain ⟨i, hi, hparent⟩ := h.holder_eq col hcol
      cases hi.symm.trans hholder
      rw [hparent]
      simp [PlainSearch.parent, PlainSearch.select]
    · rw [← h.parent_eq j (hj.resolve_left (Ne.symm hjcol))]
      simp [PlainSearch.parent, PlainSearch.select, hjcol]

theorem Mirrors.advance {search next : Search (Exact K) m n} {plain : PlainSearch (Exact K) m n}
    {row : Fin m} {col : Fin n}
    (h : Mirrors (Grid.exact cost) (search.relax (Grid.exact cost) row) plain)
    (hpotentials : search.potentials = Potentials.exact u v)
    (hnext : search.advance (Grid.exact cost) row = some (col, next)) :
    ∃ plain', plain.advance (Grid.exact cost) = some (col, plain') ∧
      Mirrors (Grid.exact cost) next plain' ∧
      plain'.made = Round.selection ⟨row, search, col, next⟩ (Grid.exact cost) :: plain.made ∧
      ∃ u' v', next.potentials = Potentials.exact u' v' := by
  obtain ⟨hnearest, rfl⟩ := advance_eq_some.mp hnext
  have hcol := mem_outside.mp (mem_outside_of_nearest? hnearest)
  obtain ⟨holder, hholder, hparent⟩ := h.holder_eq col hcol
  have houtside : plain.outside = (search.relax (Grid.exact cost) row).outside := by
    rw [PlainSearch.outside, h.cols_eq, outside_eq]
  have hplain : plain.nearest? (Grid.exact cost) = some col := by
    rw [← hnearest, nearest?_eq_find?]
    unfold PlainSearch.nearest?
    rw [houtside]
    apply List.find?_congr
    intro j hj
    rw [← List.decide_forall_mem, ← List.decide_forall_mem]
    apply decide_eq_decide.mpr
    refine forall₂_congr fun k hk => ?_
    rw [h.slack_eq j (mem_outside.mp hj), h.slack_eq k (mem_outside.mp hk)]
  have hslack : (search.relax (Grid.exact cost) row).slack col =
      .finite (cost holder col - u holder - v col) := by
    rw [h.slack_eq col hcol, ← PlainSearch.slack_holder hholder, h.potentials_eq,
      potentials_relax, hpotentials, Potentials.slack_exact]
  refine ⟨plain.select (Grid.exact cost) col holder, ?_, h.select hpotentials hcol hholder hslack,
    ?_, ?_⟩
  · simp only [PlainSearch.advance, hplain, hholder, bind, Option.bind, pure]
  · have hmade : (plain.select (Grid.exact cost) col holder).made =
        ⟨col, holder.val, plain.gap (Grid.exact cost) col,
          (plain.select (Grid.exact cost) col holder).potentials⟩ :: plain.made := rfl
    rw [hmade, ← h.slack_eq col hcol, ← hparent, h.potentials_select hcol holder]
    rfl
  · have hcompared : (search.relax (Grid.exact cost) row).potentials = Potentials.exact u v :=
      hpotentials
    rw [potentials_visit, hslack]
    exact exists_potentials_lower hcompared _

theorem Mirrors.grow {matching : Matching m n} {search last : Search (Exact K) m n}
    {plain : PlainSearch (Exact K) m n} {row : Fin m} {col : Fin n}
    (h : Mirrors (Grid.exact cost) (search.relax (Grid.exact cost) row) plain)
    (hpotentials : search.potentials = Potentials.exact u v)
    (hgrow : grow (Grid.exact cost) matching count row search = .ok (col, last)) :
    ∃ plain', plain.grow (Grid.exact cost) matching count = .ok (col, plain') ∧
      Mirrors (Grid.exact cost) last plain' ∧
      plain'.made.reverse = plain.made.reverse ++
        (roundsFrom (Grid.exact cost) matching count row search).map
          fun round => round.selection (Grid.exact cost) := by
  refine grow_induction (motive := fun count row search => ∀ plain u v,
    Mirrors (Grid.exact cost) (search.relax (Grid.exact cost) row) plain →
      search.potentials = Potentials.exact u v →
        ∃ plain', plain.grow (Grid.exact cost) matching count = .ok (col, plain') ∧
          Mirrors (Grid.exact cost) last plain' ∧
          plain'.made.reverse = plain.made.reverse ++
            (roundsFrom (Grid.exact cost) matching count row search).map
              fun round => round.selection (Grid.exact cost)) ?_ ?_ hgrow plain u v h hpotentials
  · intro count row search hnext hfree plain u v h hpotentials
    obtain ⟨plain', hadvance, hmirrors, hmade, -⟩ := h.advance hpotentials hnext
    refine ⟨plain', ?_, hmirrors, ?_⟩
    · simp only [PlainSearch.grow, hadvance, hfree]
    · rw [roundsFrom_of_free hnext hfree, hmade, List.reverse_cons]
      rfl
  · intro count row search j next owner hnext howner ih plain u v h hpotentials
    obtain ⟨plain', hadvance, hmirrors, hmade, u', v', hpotentials'⟩ :=
      h.advance hpotentials hnext
    obtain ⟨plain'', hgrow', hmirrors', hmade'⟩ :=
      ih (plain'.enter owner) u' v' (hmirrors.enter owner) hpotentials'
    refine ⟨plain'', ?_, hmirrors', ?_⟩
    · simp only [PlainSearch.grow, hadvance, howner, hgrow']
    · rw [hmade', PlainSearch.made_enter, hmade, List.reverse_cons, List.append_assoc,
        roundsFrom_of_owned hnext howner]
      rfl

theorem recomputed_of_mem_history {matching : Matching m n} {workspace : Workspace (Exact K) m n}
    {root : Fin m} {round : Round (Exact K) m n}
    (h : round ∈ history (Grid.exact cost) matching workspace (Potentials.exact u v) root) :
    round.Recomputed (Grid.exact cost) := by
  let inv : Fin m → Search (Exact K) m n → Prop := fun row search =>
    (∃ plain, Mirrors (Grid.exact cost) (search.relax (Grid.exact cost) row) plain) ∧
      ∃ u v, search.potentials = Potentials.exact u v
  have hstart : inv root (start workspace (Potentials.exact u v) root) :=
    ⟨⟨_, mirrors_start cost workspace u v root⟩, u, v, rfl⟩
  have hstep : ∀ row search col next owner, inv row search →
      search.advance (Grid.exact cost) row = some (col, next) → matching.rowOf col = some owner →
        inv owner (next.enter owner) := by
    rintro row search col next owner ⟨⟨plain, hmirrors⟩, u, v, hpotentials⟩ hnext -
    obtain ⟨plain', -, hmirrors', -, hpotentials'⟩ := hmirrors.advance hpotentials hnext
    exact ⟨⟨_, hmirrors'.enter owner⟩, hpotentials'⟩
  obtain ⟨⟨⟨plain, hmirrors⟩, u, v, hpotentials⟩, hnext⟩ :=
    invariant_of_mem_rounds inv hstep hstart h
  exact Mirrors.recomputed hmirrors hpotentials hnext

end LinearAssignment.Search
