import LinearAssignment.Run

/-! Tables and runs whose sizes are equal without being the same expression. The standard form of a
table has the lesser of two numbers as its rows; where it is known which one that is, or where two
standard forms have the same size, runs are compared after a cast. -/
namespace LinearAssignment

theorem map_eq_ok {result : Except ε β} {f : β → γ} :
    result.map f = .ok value ↔ ∃ inner, result = .ok inner ∧ f inner = value := by
  cases result with
  | error fault => simp [Except.map]
  | ok inner => simp [Except.map]

def Grid.cast (hm : m = k) (hn : n = l) (grid : Grid α m n) : Grid α k l :=
  ofFn fun i j => grid.entry (i.cast hm.symm) (j.cast hn.symm)

@[simp] theorem Grid.entry_cast (hm : m = k) (hn : n = l) (grid : Grid α m n) (i : Fin k)
    (j : Fin l) : (grid.cast hm hn).entry i j = grid.entry (i.cast hm.symm) (j.cast hn.symm) := by
  simp [cast]

@[simp] theorem Grid.cast_rfl (grid : Grid α m n) : grid.cast rfl rfl = grid := by
  ext i j
  exact entry_cast rfl rfl grid i j

theorem Grid.map_cellsByColumn (hm : m = k) (hn : n = l) :
    (cellsByColumn m n).map (fun cell => (cell.1.cast hm, cell.2.cast hn)) =
      cellsByColumn k l := by
  subst hm hn
  exact List.map_id' _

namespace Run

def cast (hm : m = k) (hn : n = l) (run : Run α m n) : Run α k l := hm ▸ hn ▸ run

section
variable (hm : m = k) (hn : n = l) (run : Run α m n)

theorem rows_cast : (run.cast hm hn).potentials.rows = run.potentials.rows.cast hm := by
  subst hm hn
  rfl

theorem cols_cast : (run.cast hm hn).potentials.cols = run.potentials.cols.cast hn := by
  subst hm hn
  rfl

theorem pairs_cast : (run.cast hm hn).matching.pairs =
    run.matching.pairs.map fun pair => (pair.1.cast hm, pair.2.cast hn) := by
  subst hm hn
  exact (List.map_id' _).symm

theorem tally_cast : (run.cast hm hn).tally = run.tally := by
  subst hm hn
  rfl

end

variable [Scalar α]

theorem total_cast (hm : m = k) (hn : n = l) (run : Run α m n) :
    (run.cast hm hn).potentials.total = run.potentials.total := by
  subst hm hn
  rfl

/-- Whether a table is run under one of its sizes or the other makes no difference, not even to a
fault. -/
theorem complete_cast (hm : m = k) (hn : n = l) (costs : Grid α m n) :
    complete (costs.cast hm hn) (start (costs.cast hm hn)) =
      (complete costs (start costs)).map (cast hm hn) := by
  subst hm hn
  rw [Grid.cast_rfl]
  exact (congrFun Except.map_id _).symm

theorem complete_of_cast (hm : m = k) (hn : n = l) {costs : Grid α m n} {run : Run α k l}
    (h : complete (costs.cast hm hn) (start (costs.cast hm hn)) = .ok run) :
    ∃ run', complete costs (start costs) = .ok run' ∧ run'.cast hm hn = run := by
  rw [complete_cast] at h
  exact map_eq_ok.mp h

end Run
end LinearAssignment
