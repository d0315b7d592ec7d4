import LinearAssignment.Proofs.Matching.Path

/-! When flipping in place comes to an end. The flip follows links that it overwrites behind itself,
so until a row comes up again it reads what the matching held before. At a row that comes up again
it finds a column of its own making, whose parent is the same row, and from there on the two columns
change places for ever. The flip therefore ends just when the walk in the unmodified matching does. -/
namespace LinearAssignment.Matching

theorem parentRow_eq_ok {parent : Array Nat} {row : Fin m} :
    parentRow m parent col = .ok row ↔ parent[col]? = some row.val := by
  unfold parentRow
  cases hentry : parent[col]? with
  | none => simp
  | some index =>
    by_cases hindex : index < m
    · simp [checkIndex_of_lt hindex, Fin.ext_iff]
    · have hne : index ≠ row.val := by omega
      simp [checkIndex_of_le (Nat.not_lt.mp hindex), hne]

def reached (parent : Array Nat) (col : Fin n) : Option (Fin m × Fin n) :=
  match parentRow m parent col.val with
  | .ok row => some (row, col)
  | .error _ => none

theorem reached_eq_some {parent : Array Nat} {col : Fin n} {pair : Fin m × Fin n} :
    reached parent col = some pair ↔ parentRow m parent col.val = .ok pair.1 ∧ pair.2 = col := by
  unfold reached
  split
  · rename_i row hrow
    rw [hrow, Option.some_inj, Except.ok.injEq, Prod.ext_iff, eq_comm (a := col)]
  · rename_i fault hfault
    simp [hfault]

/-- Where the walk back from a column is after so many steps, in the matching as it is: at a column
and its parent row, from which it goes on to the column that this row has. -/
def walk (matching : Matching m n) (parent : Array Nat) (col : Fin n) :
    Nat → Option (Fin m × Fin n)
  | 0 => reached parent col
  | steps + 1 => (matching.walk parent col steps).bind fun pair =>
      (matching.columnOf pair.1).bind (reached parent)

theorem walk_succ (matching : Matching m n) (parent : Array Nat) (col : Fin n) (steps : Nat) :
    matching.walk parent col (steps + 1) = (reached parent col).bind fun pair =>
      (matching.columnOf pair.1).bind fun released => matching.walk parent released steps := by
  induction steps with
  | zero => rfl
  | succ steps ih =>
    rw [walk, ih]
    simp only [Option.bind_assoc]
    rfl

def WalkEnds (matching : Matching m n) (parent : Array Nat) (col : Fin n) (steps : Nat)
    (row : Fin m) : Prop :=
  ∃ j, matching.walk parent col steps = some (row, j) ∧ matching.columnOf row = none

def WalkRevisits (matching : Matching m n) (parent : Array Nat) (col : Fin n) : Prop :=
  ∃ first second row j k, first < second ∧ matching.walk parent col first = some (row, j) ∧
    matching.walk parent col second = some (row, k)

/-- A flip in place that comes to an end after so many turns, the last of them at a row that has no
column by then. -/
inductive Ends (parent : Array Nat) : Fin n → Matching m n → Nat → Fin m → Matching m n → Prop where
  | last (hparent : parentRow m parent col.val = .ok row) (hfree : current.columnOf row = none) :
      Ends parent col current 1 row (current.pair row col)
  | turn (hparent : parentRow m parent col.val = .ok row)
      (hreleased : current.columnOf row = some released)
      (rest : Ends parent released (current.pair row col) turns root next) :
      Ends parent col current (turns + 1) root next

variable {matching current next : Matching m n} {parent : Array Nat}

theorem Ends.flip_eq (h : Ends parent col current turns root next) (steps : Nat) :
    flip parent steps col current = if turns ≤ steps then .ok next else .error .cyclicPath := by
  induction h generalizing steps with
  | last hparent hfree =>
    cases steps with
    | zero => rfl
    | succ steps => simp [flip, hparent, hfree]
  | turn hparent hreleased rest ih =>
    cases steps with
    | zero => rfl
    | succ steps => simp [flip, hparent, hreleased, ih]

theorem exists_ends_of_flip (h : flip parent steps col current = .ok next) :
    ∃ turns root, Ends parent col current turns root next := by
  induction steps generalizing col current with
  | zero => cases h
  | succ steps ih =>
    rw [flip] at h
    split at h
    · cases h
    · rename_i row hparent
      split at h
      · rename_i hfree
        cases h
        exact ⟨_, _, .last hparent hfree⟩
      · rename_i released hreleased
        obtain ⟨turns, root, hrest⟩ := ih h
        exact ⟨_, _, .turn hparent hreleased hrest⟩

theorem flip_eq_cyclicPath (hparent : ∀ j : Fin n, ∃ row : Fin m, parent[j.val]? = some row.val)
    (h : ¬∃ turns root next, Ends parent col current turns root next) (steps : Nat) :
    flip parent steps col current = .error .cyclicPath := by
  induction steps generalizing col current with
  | zero => rfl
  | succ steps ih =>
    obtain ⟨row, hrow⟩ := hparent col
    have hrow := parentRow_eq_ok.mpr hrow
    cases hcolumn : current.columnOf row with
    | none => exact absurd ⟨_, _, _, .last hrow hcolumn⟩ h
    | some released =>
      simp only [flip, hrow, hcolumn]
      apply ih
      rintro ⟨turns, root, next, hrest⟩
      exact h ⟨_, _, _, .turn hrow hcolumn hrest⟩

/-- Two columns with the same parent row change places at this row, and neither is the last. -/
theorem not_ends_of_common_parent (hparent : parentRow m parent col.val = .ok row)
    (hother : parentRow m parent other.val = .ok row) (hrow : current.columnOf row = some other) :
    ¬Ends parent col current turns root next := by
  intro h
  induction h with
  | last hlast hfree =>
    cases hparent.symm.trans hlast
    cases hrow.symm.trans hfree
  | turn hturn hreleased rest ih =>
    cases hparent.symm.trans hturn
    cases hrow.symm.trans hreleased
    exact ih hother hparent (by rw [columnOf_pair, if_pos rfl])

def Overwrites (parent : Array Nat) (matching current : Matching m n) : Prop :=
  ∀ row, current.columnOf row = matching.columnOf row ∨
    ∃ j : Fin n, current.columnOf row = some j ∧ parentRow m parent j.val = .ok row

theorem Overwrites.pair (h : Overwrites parent matching current)
    (hparent : parentRow m parent col.val = .ok row) :
    Overwrites parent matching (current.pair row col) := by
  intro i
  rw [columnOf_pair]
  split
  · rename_i heq
    exact Or.inr ⟨col, rfl, heq ▸ hparent⟩
  · exact h i

theorem Ends.exists_path_of_overwrites (h : Ends parent col current turns root next)
    (hcurrent : Overwrites parent matching current) :
    ∃ path, Path matching parent root col path ∧ path.length = turns ∧
      next = current.pairAll path := by
  induction h with
  | last hparent hfree =>
    -- A row that is free by now has been free from the start.
    rcases hcurrent _ with hstart | ⟨j, hj, -⟩
    · exact ⟨_, .last hparent (hstart.symm.trans hfree), rfl, rfl⟩
    · cases hj.symm.trans hfree
  | turn hparent hreleased rest ih =>
    obtain ⟨path, hpath, hlength, hnext⟩ := ih (hcurrent.pair hparent)
    rcases hcurrent _ with hstart | ⟨j, hj, hown⟩
    · exact ⟨_, .step hparent (hstart.symm.trans hreleased) hpath, by simp [hlength], hnext⟩
    · cases hj.symm.trans hreleased
      exact absurd rest
        (not_ends_of_common_parent hown hparent (by rw [columnOf_pair, if_pos rfl]))

/-- Flipping in place ends just when the path in the unmodified matching does: at the same row, with
a turn for each pair of the path. -/
theorem ends_iff_path :
    Ends parent col matching turns root next ↔
      ∃ path, Path matching parent root col path ∧ path.length = turns ∧
        next = matching.pairAll path := by
  constructor
  · intro h
    exact h.exists_path_of_overwrites fun row => Or.inl rfl
  · rintro ⟨path, hpath, rfl, rfl⟩
    obtain ⟨turns, last, hends⟩ := exists_ends_of_flip hpath.flip_eq
    obtain ⟨path', hpath', rfl, -⟩ := hends.exists_path_of_overwrites fun row => Or.inl rfl
    obtain ⟨rfl, rfl⟩ := hpath.unique hpath'
    exact hends

theorem Path.walk_eq (h : Path matching parent root col path) (steps : Nat) :
    matching.walk parent col steps = path[steps]? := by
  induction h generalizing steps with
  | last hparent hfree =>
    cases steps with
    | zero => exact reached_eq_some.mpr ⟨hparent, rfl⟩
    | succ steps => simp [walk_succ, reached, hparent, hfree]
  | step hparent hreleased rest ih =>
    cases steps with
    | zero => exact reached_eq_some.mpr ⟨hparent, rfl⟩
    | succ steps => simp [walk_succ, reached, hparent, hreleased, ih]

theorem Path.exists_last (h : Path matching parent root col path) :
    ∃ j, path.getLast? = some (root, j) := by
  induction h with
  | last hparent hfree => exact ⟨_, rfl⟩
  | step hparent hreleased rest ih =>
    obtain ⟨j, hj⟩ := ih
    exact ⟨j, by rw [List.getLast?_cons, hj, Option.getD_some]⟩

theorem walkEnds_iff_path :
    matching.WalkEnds parent col steps root ↔
      ∃ path, Path matching parent root col path ∧ path.length = steps + 1 := by
  constructor
  · rintro ⟨j, hwalk, hfree⟩
    induction steps generalizing col with
    | zero =>
      obtain ⟨hparent, rfl⟩ := reached_eq_some.mp hwalk
      exact ⟨_, .last hparent hfree, rfl⟩
    | succ steps ih =>
      rw [walk_succ] at hwalk
      obtain ⟨pair, hpair, hwalk⟩ := Option.bind_eq_some_iff.mp hwalk
      obtain ⟨released, hreleased, hwalk⟩ := Option.bind_eq_some_iff.mp hwalk
      obtain ⟨path, hpath, hlength⟩ := ih hwalk
      have hparent := (reached_eq_some.mp hpair).1
      exact ⟨_, .step hparent hreleased hpath, by simp [hlength]⟩
  · rintro ⟨path, hpath, hlength⟩
    obtain ⟨j, hj⟩ := hpath.exists_last
    rw [List.getLast?_eq_getElem?, hlength, Nat.add_sub_cancel] at hj
    exact ⟨j, (hpath.walk_eq steps).trans hj, hpath.root_free⟩

theorem walkEnds_iff_ends :
    matching.WalkEnds parent col steps root ↔
      ∃ next, Ends parent col matching (steps + 1) root next := by
  rw [walkEnds_iff_path]
  constructor
  · rintro ⟨path, hpath, hlength⟩
    exact ⟨_, ends_iff_path.mpr ⟨path, hpath, hlength, rfl⟩⟩
  · rintro ⟨next, hends⟩
    obtain ⟨path, hpath, hlength, -⟩ := ends_iff_path.mp hends
    exact ⟨path, hpath, hlength⟩

theorem Path.length_le_min (h : Path matching parent root col path) : path.length ≤ min m n := by
  have hcols : path.length ≤ n := by simpa using h.nodup_cols.length_le_card
  have hrows := h.length_le
  omega

theorem Path.not_walkRevisits (h : Path matching parent root col path) :
    ¬matching.WalkRevisits parent col := by
  rintro ⟨first, second, row, j, k, hlt, hfirst, hsecond⟩
  rw [h.walk_eq] at hfirst hsecond
  obtain ⟨hlength, -⟩ := List.getElem?_eq_some_iff.mp hsecond
  refine List.nodup_iff_getElem?_ne_getElem?.mp h.nodup_rows first second hlt ?_ ?_
  · rwa [List.length_map]
  · rw [List.getElem?_map, List.getElem?_map, hfirst, hsecond]
    rfl

theorem walkRevisits_of_forall_not_walkEnds
    (hparent : ∀ j : Fin n, ∃ row : Fin m, parent[j.val]? = some row.val)
    (h : ∀ steps row, ¬matching.WalkEnds parent col steps row) :
    matching.WalkRevisits parent col := by
  have hreached (j : Fin n) : ∃ pair, reached (m := m) parent j = some pair := by
    obtain ⟨row, hrow⟩ := hparent j
    exact ⟨(row, j), reached_eq_some.mpr ⟨parentRow_eq_ok.mpr hrow, rfl⟩⟩
  have hwalk (steps : Nat) : ∃ pair, matching.walk parent col steps = some pair := by
    induction steps with
    | zero => exact hreached col
    | succ steps ih =>
      obtain ⟨⟨row, j⟩, hpair⟩ := ih
      obtain ⟨released, hreleased⟩ := Option.ne_none_iff_exists'.mp fun hfree =>
        h steps row ⟨j, hpair, hfree⟩
      obtain ⟨pair, hpair'⟩ := hreached released
      exact ⟨pair, by simp [walk, hpair, hreleased, hpair']⟩
  choose pair hpair using hwalk
  obtain ⟨first, second, hne, heq⟩ :=
    Finite.exists_ne_map_eq_of_infinite fun steps => (pair steps).1
  have hrow (steps : Nat) : matching.walk parent col steps =
      some ((pair steps).1, (pair steps).2) := hpair steps
  rcases Nat.lt_or_gt_of_ne hne with hlt | hlt
  · exact ⟨first, second, _, _, _, hlt, hrow first, heq ▸ hrow second⟩
  · exact ⟨second, first, _, _, _, hlt, hrow second, heq ▸ hrow first⟩

/-- How a flip in place fares, told from the walk in the matching as it is before the flip. -/
structure Fate (matching : Matching m n) (parent : Array Nat) (root : Fin m) (col : Fin n) :
    Prop where
  ends_iff : (∃ steps next, flip parent steps col matching = .ok next) ↔
    ∃ steps row, matching.WalkEnds parent col steps row
  ends_at : ∀ steps row, matching.WalkEnds parent col steps row →
    steps < min m n ∧ ∃ next, Ends parent col matching (steps + 1) row next ∧
      (∀ limit, flip parent limit col matching =
        if steps < limit then .ok next else .error .cyclicPath) ∧
      matching.augment root.val col.val parent = .ok next.countOne
  revisits_iff : matching.WalkRevisits parent col ↔
    ¬∃ steps row, matching.WalkEnds parent col steps row
  cyclic : matching.WalkRevisits parent col →
    (∀ limit, flip parent limit col matching = .error .cyclicPath) ∧
      matching.augment root.val col.val parent = .error .cyclicPath

/-- From a free column, whatever the matching and the parents are, a flip in place ends just when
the walk in the unmodified matching does. -/
theorem fate_of_free {root : Fin m} (hroot : matching.columnOf root = none)
    (hcol : matching.rowOf col = none)
    (hparent : ∀ j : Fin n, ∃ row : Fin m, parent[j.val]? = some row.val) :
    matching.Fate parent root col := by
  have haugment := augment_val matching parent hroot hcol
  have hrevisits : matching.WalkRevisits parent col ↔
      ¬∃ steps row, matching.WalkEnds parent col steps row := by
    constructor
    · rintro hrevisits ⟨steps, row, hwalk⟩
      obtain ⟨path, hpath, -⟩ := walkEnds_iff_path.mp hwalk
      exact hpath.not_walkRevisits hrevisits
    · intro hnot
      exact walkRevisits_of_forall_not_walkEnds hparent fun steps row hwalk =>
        hnot ⟨steps, row, hwalk⟩
  refine { ends_iff := ?ends_iff, ends_at := ?ends_at, revisits_iff := hrevisits, cyclic := ?cyclic }
  case ends_iff =>
    constructor
    · rintro ⟨steps, next, hflip⟩
      obtain ⟨turns, row, hends⟩ := exists_ends_of_flip hflip
      obtain ⟨turns, rfl⟩ : ∃ steps, turns = steps + 1 := by cases hends <;> exact ⟨_, rfl⟩
      exact ⟨turns, row, walkEnds_iff_ends.mpr ⟨next, hends⟩⟩
    · rintro ⟨steps, row, hwalk⟩
      obtain ⟨next, hends⟩ := walkEnds_iff_ends.mp hwalk
      exact ⟨steps + 1, next, by rw [hends.flip_eq, if_pos le_rfl]⟩
  case ends_at =>
    intro steps row hwalk
    obtain ⟨path, hpath, hlength⟩ := walkEnds_iff_path.mp hwalk
    have hbound := hpath.length_le_min
    rw [hlength] at hbound
    have hends : Ends parent col matching (steps + 1) row (matching.pairAll path) :=
      ends_iff_path.mpr ⟨path, hpath, hlength, rfl⟩
    refine ⟨hbound, _, hends, hends.flip_eq, ?_⟩
    rw [haugment, hends.flip_eq, if_pos (by omega)]
    rfl
  case cyclic =>
    intro hwalk
    have hforever : ∀ limit, flip parent limit col matching = .error .cyclicPath := by
      refine flip_eq_cyclicPath hparent ?_
      rintro ⟨turns, row, next, hends⟩
      obtain ⟨path, hpath, -⟩ := ends_iff_path.mp hends
      exact hpath.not_walkRevisits hwalk
    exact ⟨hforever, haugment.trans (congrArg _ (hforever m))⟩

theorem fate_of_free_three_by_three :
    let matching : Matching 3 3 := ⟨#v[some 0, some 1, none], #v[some 0, some 1, none], 2⟩
    matching.columnOf 2 = none ∧ matching.rowOf 2 = none ∧
      (∀ j : Fin 3, ∃ row : Fin 3, #[2, 0, 1][j.val]? = some row.val) ∧
      matching.Fate #[2, 0, 1] 2 2 ∧ matching.WalkEnds #[2, 0, 1] 2 2 2 ∧
      (∀ j : Fin 3, ∃ row : Fin 3, #[1, 0, 0][j.val]? = some row.val) ∧
      matching.Fate #[1, 0, 0] 2 2 ∧ matching.WalkRevisits #[1, 0, 0] 2 := by
  intro matching
  refine ⟨rfl, rfl, by decide, fate_of_free rfl rfl (by decide), ⟨0, rfl, rfl⟩, by decide,
    fate_of_free rfl rfl (by decide), ?_⟩
  exact ⟨0, 2, 0, 2, 1, by decide, rfl, rfl⟩

end LinearAssignment.Matching
