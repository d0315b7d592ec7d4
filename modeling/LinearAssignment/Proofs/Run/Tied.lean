import LinearAssignment.Proofs.Run.Work
import LinearAssignment.Proofs.Search.Sweep

/-! Runs over rows that are constant. Every pairing is cheapest, so what is matched comes from ties
alone. Each phase sweeps over the columns of the rows before, none of which it can have for less,
and takes the next one for its root; the matching is the diagonal, and the columns scanned are as
many as they ever are. -/
namespace LinearAssignment.Run

variable [Field K] [LinearOrder K]

theorem initial_of_constant (level : Fin m → K) (hmn : m ≤ n) :
    Potentials.initial (Grid.exact fun (i : Fin m) (_ : Fin n) => level i) =
      Potentials.exact level fun _ => 0 := by
  obtain ⟨lowest, hlowest, hinitial⟩ := exists_initial_exact (fun i (_ : Fin n) => level i) hmn
  have heq : lowest = level := by
    funext i
    obtain ⟨j, hj⟩ := (hlowest i).1
    exact hj.symm
  rw [hinitial, heq]

/-- The first rows have the first columns, in order, at the prices of the start. -/
structure Diagonal (level : Fin m → K) (count : Nat) (run : Run (Exact K) m n) : Prop where
  potentials_eq : run.potentials = Potentials.exact level fun _ => 0
  updates_eq : run.tally.dualUpdates = 0
  scanned_eq : 2 * run.tally.columnsScanned = count * (count + 1)
  columnOf_iff : ∀ i j, run.matching.columnOf i = some j ↔ i.val = j.val ∧ i.val < count

theorem diagonal_start (level : Fin m → K) (hmn : m ≤ n) :
    Diagonal level 0 (start (Grid.exact fun (i : Fin m) (_ : Fin n) => level i)) where
  potentials_eq := initial_of_constant level hmn
  updates_eq := rfl
  scanned_eq := rfl
  columnOf_iff i j := by simp [start]

theorem Diagonal.col_eq {run : Run (Exact K) m n} {costs : Grid (Exact K) m n}
    {hcount : count < m} {search : Search (Exact K) m n} (h : Diagonal level count run)
    (hm : run.matching.Consistent) (hmn : m ≤ n)
    (hended : Search.Ended costs run.matching ⟨count, hcount⟩ col search)
    (hsweep : Search.Sweep level ⟨count, hcount⟩ search)
    (hlength : search.cols.length = col.val + 1) : col.val = count := by
  rcases Nat.lt_trichotomy col.val count with hlt | heq | hgt
  · have howned : run.matching.columnOf ⟨col.val, hlt.trans hcount⟩ = some col :=
      (h.columnOf_iff _ _).mpr ⟨rfl, hlt⟩
    rw [hm, hended.free] at howned
    cases howned
  · exact heq
  · let next : Fin n := ⟨count, hcount.trans_le hmn⟩
    have hmem : next ∈ search.cols := by
      rw [hsweep.mem_cols, hlength]
      exact hgt.trans (Nat.lt_succ_self _)
    obtain ⟨older, hcols, howned⟩ := hended.cols_eq
    rw [hcols] at hmem
    rcases List.mem_cons.mp hmem with rfl | holder
    · exact absurd hgt (Nat.lt_irrefl _)
    · obtain ⟨i, hi⟩ := Option.ne_none_iff_exists'.mp (howned next holder)
      obtain ⟨heq, hlt⟩ := (h.columnOf_iff i next).mp ((hm i next).mpr hi)
      rw [heq] at hlt
      exact absurd hlt (Nat.lt_irrefl count)

theorem Diagonal.after {level : Fin m → K} {run : Run (Exact K) m n} {hcount : count < m}
    {search : Search (Exact K) m n} {path : List (Fin m × Fin n)}
    (h : Diagonal level count run) (hprogress : Progress count run)
    (hphase : Phase (Grid.exact fun i _ => level i) run ⟨count, hcount⟩ col search path)
    (hmn : m ≤ n) :
    Diagonal level (count + 1) (run.after ⟨count, hcount⟩ col search path) := by
  have hm := hprogress.consistent
  have hrun := hphase.searched
  rw [h.potentials_eq] at hrun
  obtain ⟨hsweep, hlength⟩ := Search.sweep_of_run hrun
  have hcol := h.col_eq hm hmn (hphase.ended hm (hprogress.counts hcount.le)) hsweep hlength
  constructor
  case potentials_eq => exact hsweep.potentials_eq
  case updates_eq =>
    rw [hphase.dualUpdates_after, h.updates_eq, hsweep.steps_eq, List.length_nil]
  case scanned_eq =>
    calc 2 * (run.after ⟨count, hcount⟩ col search path).tally.columnsScanned
        = count * (count + 1) + 2 * (count + 1) := by
          rw [hphase.columnsScanned_after, Nat.mul_add, h.scanned_eq, hlength, hcol]
      _ = (count + 1) * (count + 1 + 1) := by ring
  case columnOf_iff =>
    intro i j
    rw [hphase.columnOf_after (hsweep.parent_eq col)]
    split
    · rename_i hroot
      rw [Option.some.injEq, Fin.ext_iff, hcol, hroot]
      exact (and_iff_left (Nat.lt_succ_self count)).symm
    · rename_i hne
      have hval : i.val ≠ count := fun heq => hne (Fin.ext heq)
      rw [h.columnOf_iff]
      omega

theorem exists_diagonal (level : Fin m → K) (hmn : m ≤ n) (hcount : count ≤ m) :
    ∃ run : Run (Exact K) m n,
      phases (Grid.exact fun i _ => level i) count (start (Grid.exact fun i _ => level i)) =
        .ok run ∧ Progress count run ∧ Diagonal level count run := by
  refine exists_phases (Diagonal level) hmn (diagonal_start level hmn) ?_ ?_ hcount
  · intro _ run _ _ _ hdiagonal j
    rw [hdiagonal.potentials_eq]
    exact Potentials.slack_exact_lt_infinity level _ _ _ j
  · exact fun _ _ _ _ _ _ hprogress hdiagonal hphase => hdiagonal.after hprogress hphase hmn

end LinearAssignment.Run
