import LinearAssignment.Proofs.Solution.Certified
import LinearAssignment.Proofs.Solution.SameForm

/-! One table under different gates. A looser gate changes the penalty of all pairs that are still
refused, so the standard forms have little in common; but what was admissible stays so, and the
solutions are compared by what is best among the admissible pairs. A gate that nothing lies beyond
refuses no pair, and then the standard form is the one without a gate. -/
namespace LinearAssignment

variable [Field K] [LinearOrder K]

namespace Problem

theorem isFinite_of_mem_withGate {criterion : Criterion (Exact K)} {gate : K}
    {bound : Exact K} (h : bound ∈ (criterion.withGate (.finite gate)).gate) :
    Scalar.isFinite bound = true :=
  Exact.isFinite_iff.mpr ⟨gate, (Option.some.inj h).symm⟩

def gatedAt (problem : Problem (Exact K) rows cols) (gate : K) : Problem (Exact K) rows cols where
  values := problem.values
  criterion := problem.criterion.withGate (.finite gate)
  values_finite := problem.values_finite
  gate_finite := fun _ hgate => isFinite_of_mem_withGate hgate

def ungated (problem : Problem (Exact K) rows cols) : Problem (Exact K) rows cols where
  values := problem.values
  criterion := .ofSense problem.criterion.sense
  values_finite := problem.values_finite
  gate_finite := fun _ hgate => nomatch hgate

variable {problem : Problem (Exact K) rows cols}

theorem admissible_gatedAt {gate : K} (pair : Fin rows × Fin cols) :
    (problem.gatedAt gate).admissible pair.1 pair.2 = true ↔
      problem.criterion.sense.AtLeastAsGood (problem.number pair) gate := by
  rw [admissible, (problem.gatedAt gate).entry_eq_number pair]
  exact Sense.admits_finite problem.criterion.sense _ gate

theorem agrees_ungated {gate : K} (h : ∀ pair : Fin rows × Fin cols,
    problem.criterion.sense.AtLeastAsGood (problem.number pair) gate) :
    (problem.gatedAt gate).Agrees problem.ungated where
  sense_eq := rfl
  admissible_eq row col := ((admissible_gatedAt (row, col)).mpr (h (row, col))).symm
  entry_eq _ _ _ := rfl

end Problem

variable [IsStrictOrderedRing K]

theorem Solution.Certified.le_of_looser {problem : Problem (Exact K) rows cols} {tight loose : K}
    {solution solution' : Solution (Exact K) rows cols} (h : solution.Certified)
    (h' : solution'.Certified) (hproblem : solution.problem = problem.gatedAt tight)
    (hproblem' : solution'.problem = problem.gatedAt loose)
    (hloose : problem.criterion.sense.AtLeastAsGood tight loose) :
    solution.assignment.numAssigned ≤ solution'.assignment.numAssigned ∧
      (solution.assignment.numAssigned = solution'.assignment.numAssigned →
        problem.criterion.sense.AtLeastAsGood
          (∑ pair ∈ solution'.reported.toFinset, problem.number pair)
          (∑ pair ∈ solution.reported.toFinset, problem.number pair)) := by
  have hm := h.progress.consistent
  have hadmissible : ∀ pair ∈ solution.reported.toFinset,
      solution'.problem.admissible pair.1 pair.2 = true := by
    intro pair hpair
    have hreported := (Solution.mem_reported.mp (List.mem_toFinset.mp hpair)).2
    rw [hproblem, Problem.admissible_gatedAt] at hreported
    rw [hproblem', Problem.admissible_gatedAt]
    exact hreported.trans hloose
  have hbest := h'.reported_best (Solution.isPairing_reported hm) hadmissible
  rw [(Solution.reports_assignment hm).numAssigned_eq,
    (Solution.reports_assignment h'.progress.consistent).numAssigned_eq]
  rwa [hproblem'] at hbest

/-- A looser gate reports at least as many pairs, and if they are as many, with a total at least as
good. Under a gate that admits every value a problem is solved as it is without one. -/
theorem Problem.gate_monotone (problem : Problem (Exact K) rows cols) :
    (∀ tight loose : K, problem.criterion.sense.AtLeastAsGood tight loose →
      ∃ solution solution' total total', (problem.gatedAt tight).solve = .ok solution ∧
        (problem.gatedAt loose).solve = .ok solution' ∧
        solution.assignment.objective = .finite total ∧
        solution'.assignment.objective = .finite total' ∧
        solution.assignment.numAssigned ≤ solution'.assignment.numAssigned ∧
        (solution.assignment.numAssigned = solution'.assignment.numAssigned →
          problem.criterion.sense.AtLeastAsGood total' total)) ∧
    ∀ gate : K, (∀ pair, problem.criterion.sense.AtLeastAsGood (problem.number pair) gate) →
      ∃ solution solution', (problem.gatedAt gate).solve = .ok solution ∧
        problem.ungated.solve = .ok solution' ∧ solution.Alike solution' := by
  constructor
  · intro tight loose hloose
    obtain ⟨solution, hsolve, hproblem, h⟩ := (problem.gatedAt tight).exists_certified
    obtain ⟨solution', hsolve', hproblem', h'⟩ := (problem.gatedAt loose).exists_certified
    obtain ⟨hcard, hbest⟩ := h.le_of_looser h' hproblem hproblem' hloose
    have htotal := solution.objective_eq_sum
    have htotal' := solution'.objective_eq_sum
    rw [hproblem] at htotal
    rw [hproblem'] at htotal'
    exact ⟨solution, solution', _, _, hsolve, hsolve', htotal, htotal', hcard, hbest⟩
  · intro gate hgate
    have hagrees := agrees_ungated hgate
    obtain ⟨solution, hsolve, -⟩ := (problem.gatedAt gate).exists_certified
    have houtcome := hagrees.sameForm.sameOutcome
    rw [hsolve] at houtcome
    obtain ⟨solution', hsolve', hproblem, hproblem', hrun⟩ := houtcome.exists_ok
    rw [← hproblem, ← hproblem'] at hagrees
    exact ⟨solution, solution', hsolve, hsolve', hagrees.alike hrun⟩

theorem Problem.gate_monotone_two_by_three :
    let problem : Problem (Exact ℚ) 2 3 :=
      ⟨Grid.exact ![![1, 4, 9], ![2, 8, 9]], .minimize, fun i j => by simp,
        fun gate hgate => by cases hgate⟩
    (1 : ℚ) ≤ 4 ∧
      (∃ solution solution' total total', (problem.gatedAt 1).solve = .ok solution ∧
        (problem.gatedAt 4).solve = .ok solution' ∧
        solution.assignment.objective = .finite total ∧
        solution'.assignment.objective = .finite total' ∧
        solution.assignment.numAssigned ≤ solution'.assignment.numAssigned ∧
        (solution.assignment.numAssigned = solution'.assignment.numAssigned → total' ≤ total)) ∧
      (∀ pair, problem.number pair ≤ 9) ∧
      ∃ solution solution', (problem.gatedAt 9).solve = .ok solution ∧
        problem.ungated.solve = .ok solution' ∧ solution.Alike solution' := by
  intro problem
  have hloose : (1 : ℚ) ≤ 4 := by norm_num
  have hall : ∀ pair, problem.number pair ≤ 9 := by decide +kernel
  exact ⟨hloose, problem.gate_monotone.1 1 4 hloose, hall, problem.gate_monotone.2 9 hall⟩

end LinearAssignment
