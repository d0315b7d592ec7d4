import LinearAssignment.Proofs.Problem.Exact
import LinearAssignment.Solution

/-! Inputs that are not refused. Finite values in a buffer of the right size make a problem, and a
buffer of numbers of the field holds nothing else. -/
namespace LinearAssignment

namespace Problem

section
variable [Scalar α]

theorem nonFiniteCell?_eq_none {values : Grid α rows cols}
    (h : ∀ i j, Scalar.isFinite (values.entry i j) = true) : nonFiniteCell? values = none := by
  rw [nonFiniteCell?, List.find?_eq_none]
  intro cell _
  simp [h]

theorem ofGrid_eq_ok {values : Grid α rows cols} {criterion : Criterion α}
    (hvalues : ∀ i j, Scalar.isFinite (values.entry i j) = true)
    (hgate : ∀ gate ∈ criterion.gate, Scalar.isFinite gate = true) :
    ofGrid values criterion = .ok ⟨values, criterion, hvalues, hgate⟩ := by
  unfold ofGrid
  split
  · rename_i hcell
    cases hcell.symm.trans (nonFiniteCell?_eq_none hvalues)
  · exact dif_pos ((Option.all_eq_true _ _).mpr hgate)

theorem ofRowMajor_eq_ok {values : Array α} {criterion : Criterion α}
    (hlimit : rows * cols < cellLimit) (hlength : values.size = rows * cols)
    (hvalues : ∀ i j, Scalar.isFinite ((Grid.ofRowMajor ⟨values, hlength⟩).entry i j) = true)
    (hgate : ∀ gate ∈ criterion.gate, Scalar.isFinite gate = true) :
    ofRowMajor values rows cols criterion =
      .ok ⟨Grid.ofRowMajor ⟨values, hlength⟩, criterion, hvalues, hgate⟩ := by
  rw [ofRowMajor, if_pos hlimit, dif_pos hlength]
  exact ofGrid_eq_ok hvalues hgate

end

variable [Field K] [LinearOrder K]

theorem exists_ofRowMajor (values : Vector K (rows * cols)) (hlimit : rows * cols < cellLimit)
    {criterion : Criterion (Exact K)}
    (hgate : ∀ gate ∈ criterion.gate, ∃ number, gate = .finite number) :
    ∃ problem : Problem (Exact K) rows cols,
      ofRowMajor (values.toArray.map .finite) rows cols criterion = .ok problem ∧
        problem.criterion = criterion ∧
          ∀ pair, problem.number pair = (Grid.ofRowMajor values).entry pair.1 pair.2 := by
  have hlength : (values.toArray.map Exact.finite).size = rows * cols := by simp
  have hentry (i : Fin rows) (j : Fin cols) :
      (Grid.ofRowMajor ⟨values.toArray.map Exact.finite, hlength⟩).entry i j =
        .finite ((Grid.ofRowMajor values).entry i j) := by
    simp [Vector.get]
  refine ⟨_, ofRowMajor_eq_ok hlimit hlength (fun i j => ?_) fun gate h => ?_, rfl, fun pair => ?_⟩
  · rw [hentry]
    exact Exact.isFinite_finite _
  · exact Exact.isFinite_iff.mpr (hgate gate h)
  · rw [number, hentry]
    rfl

end Problem
end LinearAssignment
