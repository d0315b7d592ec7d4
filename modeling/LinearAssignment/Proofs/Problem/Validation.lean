import LinearAssignment.Proofs.Cells
import LinearAssignment.Proofs.Problem.StandardForm

/-! Which inputs are refused, and why. The reasons come in a fixed order: a table with too many cells
for a machine word, a buffer of another size, the first value that is not finite, line after line,
and a gate that is not finite. Looking at the buffer position by position in two nested loops finds
the same reasons and never leaves the buffer. A table that is handed in as a grid is refused for the
same reasons as a buffer that holds it. -/
namespace LinearAssignment.Problem

section
variable [Scalar α]

def finiteAt? (values : Array α) (cols row col : Nat) : Option Bool :=
  values[row * cols + col]?.map Scalar.isFinite

structure Valid (values : Array α) (rows cols : Nat) (criterion : Criterion α) : Prop where
  fits : rows * cols < cellLimit
  size_eq : values.size = rows * cols
  value_finite : ∀ value ∈ values, Scalar.isFinite value = true
  gate_finite : ∀ gate ∈ criterion.gate, Scalar.isFinite gate = true

structure FirstNonFinite (values : Array α) (rows cols row col : Nat) : Prop where
  row_lt : row < rows
  col_lt : col < cols
  finiteAt?_eq : finiteAt? values cols row col = some false
  before : ∀ row' < rows, ∀ col' < cols, row' < row ∨ row' = row ∧ col' < col →
    finiteAt? values cols row' col' = some true

/-- A reason to refuse an input, none of the reasons before it being there. -/
inductive FirstDefect (values : Array α) (rows cols : Nat) (criterion : Criterion α) :
    Rejection → Prop where
  | dimensionOverflow (hlarge : cellLimit ≤ rows * cols) :
      FirstDefect values rows cols criterion (.dimensionOverflow rows cols)
  | lengthMismatch (hfits : rows * cols < cellLimit) (hsize : values.size ≠ rows * cols) :
      FirstDefect values rows cols criterion (.lengthMismatch (rows * cols) values.size)
  | nonFiniteValue {row col : Nat} (hfits : rows * cols < cellLimit)
      (hsize : values.size = rows * cols) (hfirst : FirstNonFinite values rows cols row col) :
      FirstDefect values rows cols criterion (.nonFiniteValue row col)
  | nonFiniteGate {gate : α} (hfits : rows * cols < cellLimit)
      (hsize : values.size = rows * cols)
      (hvalues : ∀ value ∈ values, Scalar.isFinite value = true)
      (hgate : criterion.gate = some gate) (hinfinite : Scalar.isFinite gate = false) :
      FirstDefect values rows cols criterion .nonFiniteGate

/-- Looks at the value of a cell. Its position is a machine word and may lie outside the buffer. -/
def inspectCell (values : Array α) (cols row col : Nat) : Except Failure Unit :=
  match checkIndex values.size ((row * cols + col) % cellLimit) with
  | .error fault => .error (.faulty fault)
  | .ok index =>
    if Scalar.isFinite values[index] then .ok () else .error (.rejected (.nonFiniteValue row col))

def inspect (values : Array α) (rows cols : Nat) (criterion : Criterion α) :
    Except Failure Unit :=
  if rows * cols < cellLimit then
    if values.size = rows * cols then do
      forM (List.range rows) fun row => forM (List.range cols) (inspectCell values cols row)
      if criterion.gate.all Scalar.isFinite then .ok () else .error (.rejected .nonFiniteGate)
    else .error (.rejected (.lengthMismatch (rows * cols) values.size))
  else .error (.rejected (.dimensionOverflow rows cols))

section
variable {values : Array α} {criterion : Criterion α}

section
variable (hsize : values.size = rows * cols)

theorem finiteAt?_val (row : Fin rows) (col : Fin cols) :
    finiteAt? values cols row.val col.val =
      some (Scalar.isFinite ((Grid.ofRowMajor ⟨values, hsize⟩).entry row col)) := by
  rw [finiteAt?, Grid.getElem?_ofRowMajor hsize]
  rfl

theorem forall_mem_iff_forall_entry :
    (∀ value ∈ values, Scalar.isFinite value = true) ↔
      ∀ row col, Scalar.isFinite ((Grid.ofRowMajor ⟨values, hsize⟩).entry row col) = true := by
  constructor
  · intro hvalues row col
    rw [Grid.entry_ofRowMajor]
    exact hvalues _ (Array.getElem_mem _)
  · intro hcells value hvalue
    obtain ⟨index, hindex, rfl⟩ := Array.mem_iff_getElem.mp hvalue
    have hlt : index < rows * cols := hsize ▸ hindex
    -- A buffer of no columns has no values, so the position can be divided by their number.
    have hcols : 0 < cols := Nat.pos_of_mul_pos_left (Nat.zero_lt_of_lt hlt)
    have hcell := hcells ⟨index / cols, (Nat.div_lt_iff_lt_mul hcols).mpr hlt⟩
      ⟨index % cols, Nat.mod_lt index hcols⟩
    simpa [Vector.get, Nat.div_add_mod'] using hcell

theorem nonFiniteCell?_eq_none_iff :
    nonFiniteCell? (Grid.ofRowMajor ⟨values, hsize⟩) = none ↔
      ∀ value ∈ values, Scalar.isFinite value = true := by
  rw [forall_mem_iff_forall_entry hsize]
  exact ⟨isFinite_of_nonFiniteCell?_eq_none, nonFiniteCell?_eq_none⟩

theorem nonFiniteCell?_eq_some_iff {row : Fin rows} {col : Fin cols} :
    nonFiniteCell? (Grid.ofRowMajor ⟨values, hsize⟩) = some (row, col) ↔
      FirstNonFinite values rows cols row.val col.val := by
  rw [nonFiniteCell?, Grid.find?_cells_eq_some]
  constructor
  · rintro ⟨hcell, hbefore⟩
    refine ⟨row.isLt, col.isLt, ?_, fun row' hrow col' hcol hlt => ?_⟩
    · rw [finiteAt?_val hsize]
      simpa using hcell
    · have hother := hbefore (⟨row', hrow⟩, ⟨col', hcol⟩) (Prod.Lex.lt_iff.mpr
        (hlt.imp_right fun h => ⟨Fin.ext h.1, h.2⟩))
      have hfinite := finiteAt?_val hsize ⟨row', hrow⟩ ⟨col', hcol⟩
      rw [hfinite]
      simpa using hother
  · intro hfirst
    constructor
    · have hcell := hfirst.finiteAt?_eq
      rw [finiteAt?_val hsize] at hcell
      simpa using hcell
    · rintro ⟨row', col'⟩ hlt
      have hbefore := hfirst.before row'.val row'.isLt col'.val col'.isLt
        ((Prod.Lex.lt_iff.mp hlt).imp_right fun h => ⟨congrArg Fin.val h.1, h.2⟩)
      rw [finiteAt?_val hsize] at hbefore
      simpa using hbefore

end

theorem ofRowMajor_eq_ofGrid (hfits : rows * cols < cellLimit)
    (hsize : values.size = rows * cols) :
    ofRowMajor values rows cols criterion =
      ofGrid (Grid.ofRowMajor ⟨values, hsize⟩) criterion := by
  rw [ofRowMajor, if_pos hfits, dif_pos hsize]

theorem ofGrid_of_nonFiniteGate {values : Grid α rows cols}
    (hvalues : nonFiniteCell? values = none)
    (hgate : criterion.gate.all Scalar.isFinite = false) :
    ofGrid values criterion = .error .nonFiniteGate := by
  unfold ofGrid
  split
  · rename_i hcell
    cases hvalues.symm.trans hcell
  · exact dif_neg (ne_true_of_eq_false hgate)

theorem map_ofGrid (values : Grid α rows cols) (criterion : Criterion α) :
    ((ofGrid values criterion).map fun _ => ()) = match nonFiniteCell? values with
      | some cell => .error (.nonFiniteValue cell.1.val cell.2.val)
      | none => if criterion.gate.all Scalar.isFinite then .ok () else .error .nonFiniteGate := by
  unfold ofGrid
  split
  · rename_i hcell
    simp only [hcell]
    rfl
  · rename_i hcell
    simp only [hcell]
    by_cases hgate : criterion.gate.all Scalar.isFinite = true
    · rw [dif_pos hgate, if_pos hgate]
      rfl
    · rw [dif_neg hgate, if_neg hgate]
      rfl

theorem FirstDefect.ofRowMajor_eq (h : FirstDefect values rows cols criterion rejection) :
    ofRowMajor values rows cols criterion = .error rejection := by
  cases h with
  | dimensionOverflow hlarge => rw [ofRowMajor, if_neg (Nat.not_lt.mpr hlarge)]
  | lengthMismatch hfits hsize => rw [ofRowMajor, if_pos hfits, dif_neg hsize]
  | @nonFiniteValue row col hfits hsize hfirst =>
    rw [ofRowMajor_eq_ofGrid hfits hsize]
    exact ofGrid_of_nonFiniteCell? (i := ⟨row, hfirst.row_lt⟩) (j := ⟨col, hfirst.col_lt⟩)
      criterion ((nonFiniteCell?_eq_some_iff hsize).mpr hfirst)
  | nonFiniteGate hfits hsize hvalues hgate hinfinite =>
    rw [ofRowMajor_eq_ofGrid hfits hsize]
    exact ofGrid_of_nonFiniteGate ((nonFiniteCell?_eq_none_iff hsize).mpr hvalues)
      ((Option.all_eq_false _ _).mpr ⟨_, hgate, hinfinite⟩)

theorem firstDefect_of_ofRowMajor (h : ofRowMajor values rows cols criterion = .error rejection) :
    FirstDefect values rows cols criterion rejection := by
  by_cases hfits : rows * cols < cellLimit
  case neg =>
    rw [ofRowMajor, if_neg hfits] at h
    cases h
    exact .dimensionOverflow (Nat.le_of_not_lt hfits)
  by_cases hsize : values.size = rows * cols
  case neg =>
    rw [ofRowMajor, if_pos hfits, dif_neg hsize] at h
    cases h
    exact .lengthMismatch hfits hsize
  rw [ofRowMajor_eq_ofGrid hfits hsize] at h
  unfold ofGrid at h
  split at h
  · rename_i row col hcell
    cases h
    exact .nonFiniteValue hfits hsize ((nonFiniteCell?_eq_some_iff hsize).mp hcell)
  · rename_i hvalues
    split at h
    · cases h
    · rename_i hgate
      cases h
      obtain ⟨gate, hcriterion, hinfinite⟩ :=
        (Option.all_eq_false _ _).mp (Bool.eq_false_of_not_eq_true hgate)
      exact .nonFiniteGate hfits hsize ((nonFiniteCell?_eq_none_iff hsize).mp hvalues) hcriterion
        hinfinite

theorem exists_ofRowMajor_iff :
    (∃ problem, ofRowMajor values rows cols criterion = .ok problem) ↔
      Valid values rows cols criterion := by
  constructor
  · rintro ⟨problem, h⟩
    have hfits : rows * cols < cellLimit := by
      by_contra hlarge
      rw [(FirstDefect.dimensionOverflow (Nat.le_of_not_lt hlarge)).ofRowMajor_eq] at h
      cases h
    obtain ⟨hsize, hgrid⟩ := ofGrid_of_ofRowMajor h
    obtain ⟨hvalues, hcriterion⟩ := values_of_ofGrid hgrid
    refine ⟨hfits, hsize, (forall_mem_iff_forall_entry hsize).mpr ?_, ?_⟩
    · rw [← hvalues]
      exact problem.values_finite
    · rw [← hcriterion]
      exact problem.gate_finite
  · intro h
    exact ⟨_, ofRowMajor_eq_ok h.fits h.size_eq
      ((forall_mem_iff_forall_entry h.size_eq).mp h.value_finite) h.gate_finite⟩

theorem inspectCell_val (hfits : rows * cols < cellLimit) (hsize : values.size = rows * cols)
    (cell : Fin rows × Fin cols) :
    inspectCell values cols cell.1.val cell.2.val =
      if !Scalar.isFinite ((Grid.ofRowMajor ⟨values, hsize⟩).entry cell.1 cell.2) then
        .error (.rejected (.nonFiniteValue cell.1.val cell.2.val))
      else .ok () := by
  have hlt := Grid.rowMajor_lt cell.1 cell.2
  have hindex : checkIndex values.size ((cell.1.val * cols + cell.2.val) % cellLimit) =
      .ok ⟨cell.1.val * cols + cell.2.val, hsize ▸ hlt⟩ := by
    rw [Nat.mod_eq_of_lt (hlt.trans hfits)]
    exact checkIndex_of_lt _
  rw [inspectCell, hindex, Grid.entry_ofRowMajor]
  change (if Scalar.isFinite values[cell.1.val * cols + cell.2.val] then _ else _) =
    if !Scalar.isFinite values[cell.1.val * cols + cell.2.val] then _ else _
  cases Scalar.isFinite values[cell.1.val * cols + cell.2.val] <;> rfl

theorem inspect_eq : inspect values rows cols criterion =
    ((ofRowMajor values rows cols criterion).map fun _ => ()).mapError Failure.rejected := by
  by_cases hfits : rows * cols < cellLimit
  case neg =>
    rw [inspect, ofRowMajor, if_neg hfits, if_neg hfits]
    rfl
  by_cases hsize : values.size = rows * cols
  case neg =>
    rw [inspect, ofRowMajor, if_pos hfits, if_pos hfits, if_neg hsize, dif_neg hsize]
    rfl
  -- The loops stop at the cell that the search for a value that is not finite would find.
  have hloops := Grid.forM_range_eq_forM_cells (m := rows) (n := cols) (inspectCell values cols)
  rw [forM_eq_of_find? _ fun cell _ => inspectCell_val hfits hsize cell] at hloops
  rw [inspect, if_pos hfits, if_pos hsize, hloops, ofRowMajor_eq_ofGrid hfits hsize, map_ofGrid,
    nonFiniteCell?]
  cases (Grid.cells rows cols).find? fun cell =>
    !Scalar.isFinite ((Grid.ofRowMajor ⟨values, hsize⟩).entry cell.1 cell.2) with
  | some cell => rfl
  | none => cases criterion.gate.all Scalar.isFinite <;> rfl

theorem ofGrid_eq_ofRowMajor {grid : Grid α rows cols} (hfits : rows * cols < cellLimit)
    (hsize : values.size = rows * cols)
    (hgrid : ∀ row col, values[row.val * cols + col.val]? = some (grid.entry row col)) :
    ofGrid grid criterion = ofRowMajor values rows cols criterion := by
  have hsame : grid = Grid.ofRowMajor ⟨values, hsize⟩ := by
    ext row col
    exact Option.some.inj ((hgrid row col).symm.trans (Grid.getElem?_ofRowMajor hsize row col))
  rw [hsame, ofRowMajor_eq_ofGrid hfits hsize]

end

/-- An input is accepted exactly if it is valid, and refused for its first defect. Looking for the
defect leads nowhere outside the buffer, and a grid with the same values is judged the same. -/
structure Judged (values : Array α) (rows cols : Nat) (criterion : Criterion α) :
    Prop where
  accepted_iff : (∃ problem, ofRowMajor values rows cols criterion = .ok problem) ↔
    Valid values rows cols criterion
  rejected_iff : ∀ rejection, ofRowMajor values rows cols criterion = .error rejection ↔
    FirstDefect values rows cols criterion rejection
  inspect_eq : inspect values rows cols criterion =
    ((ofRowMajor values rows cols criterion).map fun _ => ()).mapError .rejected
  ofGrid_eq : ∀ grid : Grid α rows cols, rows * cols < cellLimit → values.size = rows * cols →
    (∀ row col, values[row.val * cols + col.val]? = some (grid.entry row col)) →
      ofGrid grid criterion = ofRowMajor values rows cols criterion

theorem judged (values : Array α) (rows cols : Nat) (criterion : Criterion α) :
    Judged values rows cols criterion where
  accepted_iff := exists_ofRowMajor_iff
  rejected_iff := fun _ => ⟨firstDefect_of_ofRowMajor, FirstDefect.ofRowMajor_eq⟩
  inspect_eq := Problem.inspect_eq
  ofGrid_eq := fun _ => ofGrid_eq_ofRowMajor

end
end LinearAssignment.Problem
