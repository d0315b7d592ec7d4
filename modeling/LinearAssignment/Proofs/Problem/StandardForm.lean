import LinearAssignment.Proofs.Problem.Accepted
import LinearAssignment.Proofs.Problem.Penalty
import LinearAssignment.Proofs.Problem.Transpose

/-! What the standard form says of the table that it was made from. It can be made in stages, each
of them over the whole table: lay it on its side, give the values their signs, look at the values
without their signs for what the gate refuses, and add up the sizes of the rest. Every cell is then
what its definition says of the pair that it stands for, and every pair has one cell. -/
namespace LinearAssignment

namespace Grid

def map (f : α → β) (grid : Grid α m n) : Grid β m n := ofFn fun i j => f (grid.entry i j)

@[simp] theorem entry_map (f : α → β) (grid : Grid α m n) (i : Fin m) (j : Fin n) :
    (grid.map f).entry i j = f (grid.entry i j) := by
  simp [map]

def byColumn (grid : Grid α m n) : List α :=
  (cellsByColumn m n).map fun cell => grid.entry cell.1 cell.2

theorem byColumn_map (f : α → β) (grid : Grid α m n) :
    (grid.map f).byColumn = (cellsByColumn m n).map fun cell => f (grid.entry cell.1 cell.2) := by
  simp [byColumn]

def masked (grid : Grid α m n) (mask : Grid Bool m n) (other : α) : Grid α m n :=
  ofFn fun i j => if mask.entry i j then grid.entry i j else other

@[simp] theorem entry_masked (grid : Grid α m n) (mask : Grid Bool m n) (other : α) (i : Fin m)
    (j : Fin n) :
    (grid.masked mask other).entry i j = if mask.entry i j then grid.entry i j else other := by
  simp [masked]

theorem getElem?_ofRowMajor {values : Array α} (hsize : values.size = m * n) (i : Fin m)
    (j : Fin n) :
    values[i.val * n + j.val]? = some ((ofRowMajor ⟨values, hsize⟩).entry i j) := by
  have hlt : i.val * n + j.val < values.size := by
    rw [hsize]
    exact rowMajor_lt i j
  rw [entry_ofRowMajor, Array.getElem?_eq_getElem hlt]
  rfl

end Grid

namespace Problem

section
variable [Scalar α] (problem : Problem α rows cols)

def oriented : Grid α (min rows cols) (max rows cols) :=
  if h : cols < rows then
    Grid.ofFn fun i j => problem.values.transpose.entry (i.cast (min_eq_cols h))
      (j.cast (max_eq_rows h))
  else
    Grid.ofFn fun i j => problem.values.entry (i.cast (min_eq_rows h)) (j.cast (max_eq_cols h))

theorem entry_oriented (i : Fin (min rows cols)) (j : Fin (max rows cols)) :
    problem.oriented.entry i j = problem.valueIn i j := by
  by_cases h : cols < rows
  · rw [oriented, dif_pos h, Grid.entry_ofFn, Grid.entry_transpose, valueIn, locate_of_lt h]
  · rw [oriented, dif_neg h, Grid.entry_ofFn, valueIn, locate_of_not_lt h]

/-- The standard form, made of whole tables. The mask comes from the values as they are, and the
sizes are those of the values with their signs, paired off with the mask. -/
def staged : Grid α (min rows cols) (max rows cols) :=
  let signed := problem.oriented.map problem.criterion.sense.toCost
  match problem.criterion.gate with
  | none => signed
  | some gate =>
    let mask := problem.oriented.map fun value => problem.criterion.sense.admits value gate
    let spread := Scalar.sum <|
      ((signed.byColumn.zip mask.byColumn).filter Prod.snd).map fun entry => Scalar.abs entry.1
    signed.masked mask (1 + spread + spread)

theorem staged_eq_costs : problem.staged = problem.costs := by
  have hsigned (i : Fin (min rows cols)) (j : Fin (max rows cols)) :
      (problem.oriented.map problem.criterion.sense.toCost).entry i j = problem.costIn i j := by
    rw [Grid.entry_map, entry_oriented, costIn]
  ext i j
  unfold staged
  split
  · rename_i hgate
    have hadmissible : problem.admissibleIn i j = true := by
      simp [admissibleIn, Criterion.allows, hgate]
    rw [hsigned, entry_costs_of_admissibleIn problem hadmissible]
  · rename_i gate hgate
    have hmask (i : Fin (min rows cols)) (j : Fin (max rows cols)) :
        problem.criterion.sense.admits (problem.valueIn i j) gate = problem.admissibleIn i j := by
      rw [admissibleIn, Criterion.allows, hgate]
      rfl
    -- Both lists run over the same cells, so pairing them off pairs each cost with its own mark.
    rw [Grid.entry_masked, Grid.entry_map, entry_oriented, hmask, hsigned, entry_costs, penalty,
      spread, Grid.byColumn_map, Grid.byColumn_map, List.zip_map', List.filter_map, List.map_map]
    simp only [Function.comp_def, entry_oriented, hmask, costIn]

theorem ofGrid_of_ofRowMajor {values : Array α} {criterion : Criterion α}
    {problem : Problem α rows cols} (h : ofRowMajor values rows cols criterion = .ok problem) :
    ∃ hsize, ofGrid (Grid.ofRowMajor ⟨values, hsize⟩) criterion = .ok problem := by
  unfold ofRowMajor at h
  split at h
  · split at h
    · rename_i hsize
      exact ⟨hsize, h⟩
    · cases h
  · cases h

theorem getElem?_of_ofRowMajor {values : Array α} {criterion : Criterion α}
    {problem : Problem α rows cols} (h : ofRowMajor values rows cols criterion = .ok problem)
    (row : Fin rows) (col : Fin cols) :
    values[row.val * cols + col.val]? = some (problem.values.entry row col) := by
  obtain ⟨hsize, hgrid⟩ := ofGrid_of_ofRowMajor h
  rw [(values_of_ofGrid hgrid).1]
  exact Grid.getElem?_ofRowMajor hsize row col

end

variable [Field K] [LinearOrder K]

/-- The standard form of a table has its smaller side as rows. Its cells and the pairs of the table
are in bijection. An admissible pair costs its value, with the sign that makes less better; the
others cost one and twice what the sizes of the admissible values add up to, which no admissible
pair comes near. -/
structure Faithful (problem : Problem (Exact K) rows cols) : Prop where
  rows_eq : problem.costs.lines.toArray.size = min rows cols
  cols_eq : ∀ line ∈ problem.costs.lines.toArray, line.toArray.size = max rows cols
  locate_bijective : Function.Bijective
    fun cell : Fin (min rows cols) × Fin (max rows cols) => locate cell.1 cell.2
  staged_eq : problem.staged = problem.costs
  entry_admissible : ∀ i j, problem.admissible (locate i j).1 (locate i j).2 = true →
    problem.costs.entry i j = problem.criterion.sense.toCost
      (problem.values.entry (locate i j).1 (locate i j).2)
  entry_refused : ∀ i j, problem.admissible (locate i j).1 (locate i j).2 = false →
    problem.costs.entry i j = problem.penalty
  penalty_eq : problem.penalty = .finite
    (1 + 2 * ∑ pair : Fin rows × Fin cols with problem.admissible pair.1 pair.2 = true,
      |problem.number pair|)
  abs_lt_penalty : ∀ i j, problem.admissible (locate i j).1 (locate i j).2 = true →
    Scalar.abs (problem.costs.entry i j) < problem.penalty

variable [IsStrictOrderedRing K]

theorem faithful (problem : Problem (Exact K) rows cols) : problem.Faithful where
  rows_eq := problem.costs.lines.size_toArray
  cols_eq := fun line _ => line.size_toArray
  locate_bijective := (orientation rows cols).bijective
  staged_eq := problem.staged_eq_costs
  entry_admissible := fun _ _ h => problem.entry_costs_of_admissibleIn h
  entry_refused := fun _ _ h => problem.entry_costs_of_refused h
  penalty_eq := by rw [penalty_eq_fee, fee, size_eq_sum_admissible]
  abs_lt_penalty := by
    intro i j h
    rw [problem.entry_costs_of_admissibleIn h, costIn_eq_signedNumber, penalty_eq_fee,
      Exact.abs_finite, Exact.finite_lt]
    have hmem : (i, j) ∈ problem.admissibleCells := problem.mem_admissibleCells.mpr h
    exact problem.abs_signedNumber_lt_fee hmem

/-- However a table was handed in, once it is accepted the problem holds its values unchanged and
under the same criterion, and the standard form is faithful to them. -/
theorem faithful_of_accepted :
    (∀ (values : Grid (Exact K) rows cols) (criterion : Criterion (Exact K))
        (problem : Problem (Exact K) rows cols), ofGrid values criterion = .ok problem →
      problem.Faithful ∧ problem.criterion = criterion ∧ problem.values = values ∧
        ∀ row col, problem.valueAt row.val col.val = .ok (values.entry row col)) ∧
    ∀ (values : Array (Exact K)) (criterion : Criterion (Exact K))
        (problem : Problem (Exact K) rows cols),
      ofRowMajor values rows cols criterion = .ok problem →
      problem.Faithful ∧ problem.criterion = criterion ∧
        ∀ row col, values[row.val * cols + col.val]? = some (problem.values.entry row col) ∧
          problem.valueAt row.val col.val = .ok (problem.values.entry row col) := by
  constructor
  · intro values criterion problem haccepted
    obtain ⟨hvalues, hcriterion⟩ := values_of_ofGrid haccepted
    refine ⟨problem.faithful, hcriterion, hvalues, fun row col => ?_⟩
    rw [valueAt_val, hvalues]
  · intro values criterion problem haccepted
    obtain ⟨hsize, hgrid⟩ := ofGrid_of_ofRowMajor haccepted
    refine ⟨problem.faithful, (values_of_ofGrid hgrid).2, fun row col => ?_⟩
    exact ⟨getElem?_of_ofRowMajor haccepted row col, problem.valueAt_val row col⟩

theorem faithful_of_accepted_three_by_two :
    let criterion : Criterion (Exact ℚ) := Criterion.maximize.withGate (.finite 1)
    let grid : Grid (Exact ℚ) 3 2 := Grid.exact ![![4, 1], ![-2, 0], ![3, 2]]
    let values : Vector ℚ (3 * 2) := #v[4, 1, -2, 0, 3, 2]
    (∃ problem, ofGrid grid criterion = .ok problem ∧
      problem.Faithful ∧ problem.criterion = criterion ∧ problem.values = grid ∧
        ∀ row col, problem.valueAt row.val col.val = .ok (grid.entry row col)) ∧
    ∃ problem : Problem (Exact ℚ) 3 2,
      ofRowMajor (values.toArray.map .finite) 3 2 criterion = .ok problem ∧
      problem.Faithful ∧ problem.criterion = criterion ∧
        ∀ row col, (values.toArray.map Exact.finite)[row.val * 2 + col.val]? =
            some (problem.values.entry row col) ∧
          problem.valueAt row.val col.val = .ok (problem.values.entry row col) := by
  intro criterion grid values
  constructor
  · have hvalues (i : Fin 3) (j : Fin 2) : Scalar.isFinite (grid.entry i j) = true := by
      simp [grid]
    have hgate : ∀ gate ∈ criterion.gate, Scalar.isFinite gate = true := by
      intro gate hgate
      cases hgate
      rfl
    have haccepted := ofGrid_eq_ok hvalues hgate
    exact ⟨_, haccepted, faithful_of_accepted.1 _ _ _ haccepted⟩
  · have hgate : ∀ gate ∈ criterion.gate, ∃ number, gate = .finite number :=
      fun gate hgate => ⟨1, (Option.some.inj hgate).symm⟩
    obtain ⟨problem, haccepted, -⟩ := exists_ofRowMajor values (by decide) hgate
    exact ⟨problem, haccepted, faithful_of_accepted.2 _ _ _ haccepted⟩

end Problem
end LinearAssignment
