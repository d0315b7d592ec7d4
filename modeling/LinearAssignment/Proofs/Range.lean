import LinearAssignment.Proofs.Certificate
import LinearAssignment.Search

/-! Ranges of potentials, of what they leave of the costs and of what a search notes down, which the
size of the table has no part in. A row stays below one of its costs as long as some column is free,
because a free column is at zero; a column that has an owner is tight with it. -/
namespace LinearAssignment

/-- Where numbers of each kind are to lie. -/
structure Ranges (K : Type) (m : Nat) where
  row : Fin m → Set K
  col : Set K
  gap : Set K
  slack : Set K
  step : Set K

namespace Ranges

structure Within (ranges other : Ranges K m) : Prop where
  row : ∀ i, ranges.row i ⊆ other.row i
  col : ranges.col ⊆ other.col
  gap : ranges.gap ⊆ other.gap
  slack : ranges.slack ⊆ other.slack
  step : ranges.step ⊆ other.step

def inter (ranges : Ranges K m) (members : Set K) : Ranges K m where
  row i := ranges.row i ∩ members
  col := ranges.col ∩ members
  gap := ranges.gap ∩ members
  slack := ranges.slack ∩ members
  step := ranges.step ∩ members

theorem inter_within (ranges : Ranges K m) (members : Set K) :
    (ranges.inter members).Within ranges where
  row _ := Set.inter_subset_left
  col := Set.inter_subset_left
  gap := Set.inter_subset_left
  slack := Set.inter_subset_left
  step := Set.inter_subset_left

variable [Field K] [LinearOrder K]

/-- Each row between its least and its greatest cost, and all else by the bounds of all costs. -/
def between (cost : Fin m → Fin n → K) (lo hi : K) : Ranges K m where
  row i := {a | ∃ lowest highest, IsLeast (Set.range (cost i)) lowest ∧
    IsGreatest (Set.range (cost i)) highest ∧ a ∈ Set.Icc lowest highest}
  col := Set.Icc (lo - hi) 0
  gap := Set.Icc (lo - hi) (hi - lo)
  slack := Set.Icc 0 (2 • (hi - lo))
  step := Set.Icc 0 (hi - lo)

def wholeUpTo (bound : K) : Set K := {a | (∃ k : ℤ, (k : K) = a) ∧ |a| ≤ bound}

def whole (bound : K) : Ranges K m where
  row _ := wholeUpTo bound
  col := wholeUpTo bound
  gap := wholeUpTo bound
  slack := wholeUpTo bound
  step := wholeUpTo bound

theorem Icc_inter_subset_wholeUpTo [IsStrictOrderedRing K] {lo hi bound : K} (hlo : -bound ≤ lo)
    (hhi : hi ≤ bound) : Set.Icc lo hi ∩ (Int.castAddHom K).range ⊆ wholeUpTo bound := by
  rintro a ⟨⟨hge, hle⟩, hint⟩
  exact ⟨hint, abs_le.mpr ⟨hlo.trans hge, hle.trans hhi⟩⟩

theorem between_within_whole [IsStrictOrderedRing K] {cost : Fin m → Fin n → K} {bound : K}
    (hbound : 0 ≤ bound) (hcost : ∀ i j, cost i j ∈ Set.Icc (-bound) bound) :
    ((between cost (-bound) bound).inter (Int.castAddHom K).range).Within (whole (4 * bound)) where
  row i := by
    rintro a ⟨⟨_, _, ⟨⟨j, rfl⟩, -⟩, ⟨⟨k, rfl⟩, -⟩, hge, hle⟩, hint⟩
    have hmem : a ∈ Set.Icc (-bound) bound :=
      ⟨(hcost i j).1.trans hge, hle.trans (hcost i k).2⟩
    exact Icc_inter_subset_wholeUpTo (by linarith) (by linarith) ⟨hmem, hint⟩
  col := Icc_inter_subset_wholeUpTo (by linarith) (by linarith)
  gap := Icc_inter_subset_wholeUpTo (by linarith) (by linarith)
  slack := by
    refine Icc_inter_subset_wholeUpTo (by linarith) ?_
    rw [two_nsmul]
    linarith
  step := Icc_inter_subset_wholeUpTo (by linarith) (by linarith)

end Ranges

/-- All numbers that a search has before it or works out from them: the potentials, what they leave
of each cost, and what the columns remember. -/
structure Ranged [Field K] [LinearOrder K] (ranges : Ranges K m) (costs : Grid (Exact K) m n)
    (potentials : Potentials (Exact K) m n) (workspace : Workspace (Exact K) m n) : Prop where
  row : ∀ i, potentials.row i ∈ Exact.finite '' ranges.row i
  col : ∀ j, potentials.col j ∈ Exact.finite '' ranges.col
  gap : ∀ i j, costs.entry i j - potentials.row i ∈ Exact.finite '' ranges.gap
  slack : ∀ i j, potentials.slack costs i j ∈ Exact.finite '' ranges.slack
  entry : ∀ j, workspace.slack j = .infinity ∨ workspace.slack j ∈ Exact.finite '' ranges.slack

variable [Field K] [LinearOrder K] {cost : Fin m → Fin n → K} {u : Fin m → K} {v : Fin n → K}

theorem Ranged.mono {ranges other : Ranges K m} {costs : Grid (Exact K) m n}
    {potentials : Potentials (Exact K) m n} {workspace : Workspace (Exact K) m n}
    (h : Ranged ranges costs potentials workspace) (hwithin : ranges.Within other) :
    Ranged other costs potentials workspace where
  row i := Set.image_mono (hwithin.row i) (h.row i)
  col j := Set.image_mono hwithin.col (h.col j)
  gap i j := Set.image_mono hwithin.gap (h.gap i j)
  slack i j := Set.image_mono hwithin.slack (h.slack i j)
  entry j := (h.entry j).imp_right fun hmem => Set.image_mono hwithin.slack hmem

/-- A column remembers nothing yet, or nothing any more once it is in the tree, or a slack. -/
def Workspace.Shows (cost : Fin m → Fin n → K) (workspace : Workspace (Exact K) m n)
    (u : Fin m → K) (v : Fin n → K) : Prop :=
  ∀ j, workspace.slack j = .infinity ∨ workspace.slack j = .finite 0 ∨
    ∃ i, workspace.slack j = .finite (cost i j - u i - v j)

/-- A certificate under which every row lies between two of its costs, all in some group. -/
structure Confined (S : AddSubgroup K) (cost : Fin m → Fin n → K) (matching : Matching m n)
    (u : Fin m → K) (v : Fin n → K) : Prop extends Certificate cost matching u v where
  row_ge : ∀ i, ∃ j, cost i j ≤ u i
  row_le : ∀ i, ∃ j, u i ≤ cost i j
  row_mem : ∀ i, u i ∈ S
  col_mem : ∀ j, v j ∈ S

variable {S : AddSubgroup K} {matching : Matching m n} {lo hi : K}

theorem Confined.exists_bounds (h : Confined S cost matching u v) (i : Fin m) :
    ∃ lowest highest, IsLeast (Set.range (cost i)) lowest ∧
      IsGreatest (Set.range (cost i)) highest ∧ u i ∈ Set.Icc lowest highest := by
  obtain ⟨j, hj⟩ := h.row_ge i
  obtain ⟨k, hk⟩ := h.row_le i
  have : Nonempty (Fin n) := ⟨j⟩
  obtain ⟨lowest, hlowest⟩ := Finite.exists_min (cost i)
  obtain ⟨highest, hhighest⟩ := Finite.exists_max (cost i)
  exact ⟨cost i lowest, cost i highest, ⟨⟨lowest, rfl⟩, Set.forall_mem_range.mpr hlowest⟩,
    ⟨⟨highest, rfl⟩, Set.forall_mem_range.mpr hhighest⟩, (hlowest j).trans hj,
    hk.trans (hhighest k)⟩

theorem Confined.row_mem_Icc (h : Confined S cost matching u v)
    (hcost : ∀ i j, cost i j ∈ Set.Icc lo hi) (i : Fin m) : u i ∈ Set.Icc lo hi := by
  obtain ⟨j, hj⟩ := h.row_ge i
  obtain ⟨k, hk⟩ := h.row_le i
  exact ⟨(hcost i j).1.trans hj, hk.trans (hcost i k).2⟩

section
variable [IsStrictOrderedRing K]

theorem Confined.sub_mem_Icc {u' : Fin m → K} {v' : Fin n → K}
    (h' : Confined S cost matching u' v') (h : Confined S cost matching u v)
    (hcost : ∀ i j, cost i j ∈ Set.Icc lo hi) (hle : u i ≤ u' i) :
    u' i - u i ∈ Set.Icc 0 (hi - lo) :=
  ⟨sub_nonneg.mpr hle, sub_le_sub (h'.row_mem_Icc hcost i).2 (h.row_mem_Icc hcost i).1⟩

theorem Confined.col_mem_Icc (h : Confined S cost matching u v) (hm : matching.Consistent)
    (hle : lo ≤ hi) (hcost : ∀ i j, cost i j ∈ Set.Icc lo hi) (j : Fin n) :
    v j ∈ Set.Icc (lo - hi) 0 := by
  refine ⟨?_, h.nonpos j⟩
  cases howner : matching.rowOf j with
  | none =>
    rw [h.free j howner]
    exact sub_nonpos.mpr hle
  | some owner =>
    have htight := h.tight owner j ((hm owner j).mpr howner)
    linarith [(h.row_mem_Icc hcost owner).2, (hcost owner j).1]

theorem Confined.gap_mem_Icc (h : Confined S cost matching u v)
    (hcost : ∀ i j, cost i j ∈ Set.Icc lo hi) (i : Fin m) (j : Fin n) :
    cost i j - u i ∈ Set.Icc (lo - hi) (hi - lo) := by
  obtain ⟨hlo, hhi⟩ := h.row_mem_Icc hcost i
  exact ⟨sub_le_sub (hcost i j).1 hhi, sub_le_sub (hcost i j).2 hlo⟩

theorem Confined.slack_mem_Icc (h : Confined S cost matching u v) (hm : matching.Consistent)
    (hle : lo ≤ hi) (hcost : ∀ i j, cost i j ∈ Set.Icc lo hi) (i : Fin m) (j : Fin n) :
    cost i j - u i - v j ∈ Set.Icc 0 (2 • (hi - lo)) := by
  have hgap := (h.gap_mem_Icc hcost i j).2
  have hcol := (h.col_mem_Icc hm hle hcost j).1
  have hfeasible := h.feasible i j
  rw [two_nsmul]
  constructor <;> linarith

theorem Confined.ranged {potentials : Potentials (Exact K) m n}
    {workspace : Workspace (Exact K) m n} (h : Confined S cost matching u v)
    (hm : matching.Consistent) (hle : lo ≤ hi) (hcost : ∀ i j, cost i j ∈ Set.Icc lo hi)
    (hmem : ∀ i j, cost i j ∈ S) (hpotentials : potentials = Potentials.exact u v)
    (hshows : workspace.Shows cost u v) :
    Ranged ((Ranges.between cost lo hi).inter S) (Grid.exact cost) potentials workspace := by
  have hgap (i : Fin m) (j : Fin n) : cost i j - u i ∈ S := S.sub_mem (hmem i j) (h.row_mem i)
  have hslack (i : Fin m) (j : Fin n) :
      cost i j - u i - v j ∈ ((Ranges.between cost lo hi).inter (S : Set K)).slack :=
    ⟨h.slack_mem_Icc hm hle hcost i j, S.sub_mem (hgap i j) (h.col_mem j)⟩
  subst hpotentials
  constructor
  case row =>
    intro i
    rw [Potentials.row_exact]
    exact ⟨u i, ⟨h.exists_bounds i, h.row_mem i⟩, rfl⟩
  case col =>
    intro j
    rw [Potentials.col_exact]
    exact ⟨v j, ⟨h.col_mem_Icc hm hle hcost j, h.col_mem j⟩, rfl⟩
  case gap =>
    intro i j
    rw [Grid.entry_exact, Potentials.row_exact, Exact.finite_sub]
    exact ⟨_, ⟨h.gap_mem_Icc hcost i j, hgap i j⟩, rfl⟩
  case slack =>
    intro i j
    rw [Potentials.slack_exact]
    exact ⟨_, hslack i j, rfl⟩
  case entry =>
    intro j
    rcases hshows j with hinfinity | hzero | ⟨i, hi⟩
    · exact .inl hinfinity
    · have hnonneg : 0 ≤ 2 • (hi - lo) := nsmul_nonneg (sub_nonneg.mpr hle) 2
      exact .inr ⟨0, ⟨⟨le_rfl, hnonneg⟩, S.zero_mem⟩, hzero.symm⟩
    · exact .inr ⟨_, hslack i j, hi.symm⟩

end

end LinearAssignment
