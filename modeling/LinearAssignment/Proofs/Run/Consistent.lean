import LinearAssignment.Proofs.Matching.Walk
import LinearAssignment.Proofs.Run.Embedding

/-! The two sides of the matching agree as long as a run goes on, whatever the numbers are. Without
a law of arithmetic a phase may follow parents of an earlier one and end at another row than its
root; but every flip that ends has flipped a path between a free row and a free column. -/
namespace LinearAssignment

theorem Matching.Consistent.augment {matching next : Matching m n} {root : Fin m} {col : Fin n}
    (hm : matching.Consistent) (haugment : matching.augment root.val col.val parent = .ok next) :
    next.Consistent := by
  obtain ⟨-, hcol, flipped, hflip, rfl⟩ := augment_eq_ok.mp haugment
  obtain ⟨turns, last, hends⟩ := exists_ends_of_flip hflip
  obtain ⟨path, hpath, -, rfl⟩ := ends_iff_path.mp hends
  exact hpath.consistent_pairAll hm hcol

namespace Run

variable [Scalar α] {costs : Grid α m n} {run next : Run α m n}

theorem consistent_of_advance (hm : run.matching.Consistent)
    (hnext : run.advance costs = .ok next) : next.matching.Consistent := by
  rw [advance] at hnext
  split at hnext
  · cases hnext
    exact hm
  · obtain ⟨col, search, matching, -, haugment, rfl⟩ := phase_eq_ok.mp hnext
    exact hm.augment haugment

theorem consistent_of_phases (hm : run.matching.Consistent)
    (hphases : phases costs count run = .ok next) : next.matching.Consistent := by
  induction count generalizing run with
  | zero =>
    cases hphases
    exact hm
  | succ count ih =>
    rw [phases_succ] at hphases
    cases hadvance : run.advance costs with
    | error fault =>
      rw [hadvance] at hphases
      cases hphases
    | ok between =>
      rw [hadvance] at hphases
      exact ih (consistent_of_advance hm hadvance) hphases

end Run
end LinearAssignment
