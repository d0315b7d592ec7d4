import LinearAssignment.Proofs.Search.Rounds

/-! Counters and log against the tree. A search counts and logs as it goes on; once it has ended,
the counters are the numbers of the steps and of the columns, and the log holds the steps and
nothing else. -/
namespace LinearAssignment.Search

/-- The counters and the log tell of the tree, and of a search from the root. -/
structure Reports (root : Fin m) (search : Search α m n) : Prop where
  root_eq : search.root = root.val
  phases_eq : search.tally.phases = 0
  updates_eq : search.tally.dualUpdates = search.steps.length
  scanned_eq : search.tally.columnsScanned = search.cols.length
  trace_eq : search.trace = search.steps.map (Event.dualStep root.val)

variable {root : Fin m} {search last : Search α m n}

theorem Reports.visit (h : Reports root search) (col : Fin n) :
    Reports root (search.visit col) :=
  { h with scanned_eq := congrArg (· + 1) h.scanned_eq }

theorem Reports.enter (h : Reports root search) (row : Fin m) : Reports root (search.enter row) :=
  { h with }

variable [Scalar α] {costs : Grid α m n}

theorem steps_lower_of_pos (search : Search α m n) {step : α} (h : 0 < step) :
    (search.lower step).steps = step :: search.steps := by
  simp [steps, lower, h, Event.step?]

theorem reports_start (workspace : Workspace α m n) (potentials : Potentials α m n)
    (root : Fin m) : Reports root (start workspace potentials root) where
  root_eq := rfl
  phases_eq := rfl
  updates_eq := rfl
  scanned_eq := rfl
  trace_eq := rfl

theorem Reports.relax (h : Reports root search) (costs : Grid α m n) (row : Fin m) :
    Reports root (search.relax costs row) :=
  { h with }

theorem Reports.lower (h : Reports root search) (step : α) : Reports root (search.lower step) := by
  by_cases hpos : 0 < step
  · constructor
    case root_eq => simpa [Search.lower, hpos] using h.root_eq
    case phases_eq => simpa [Search.lower, hpos] using h.phases_eq
    case updates_eq =>
      rw [steps_lower_of_pos search hpos, List.length_cons, ← h.updates_eq, Search.lower,
        if_pos hpos]
    case scanned_eq =>
      rw [cols_lower, ← h.scanned_eq, Search.lower, if_pos hpos]
    case trace_eq =>
      rw [steps_lower_of_pos search hpos, List.map_cons, ← h.trace_eq, ← h.root_eq, Search.lower,
        if_pos hpos]
  · rwa [lower_of_not_pos search hpos]

theorem Reports.advance (h : Reports root search) {row : Fin m} {col : Fin n}
    (hnext : search.advance costs row = some (col, last)) : Reports root last := by
  obtain ⟨-, rfl⟩ := advance_eq_some.mp hnext
  exact ((h.relax costs row).lower _).visit col

theorem reports_of_run {matching : Matching m n} {workspace : Workspace α m n}
    {potentials : Potentials α m n}
    (hrun : run costs matching workspace potentials root = .ok (col, last)) :
    Reports root last := by
  obtain ⟨row, search, hreports, hlast, -⟩ := grow_last (fun _ search => Reports root search)
    (fun _ _ _ _ owner h hnext _ => (h.advance hnext).enter owner)
    (reports_start workspace potentials root) hrun
  exact hreports.advance hlast

end LinearAssignment.Search
