import LinearAssignment.Search

/-! The rounds of a search, one after another. A round compares the newest row, selects the nearest
column and takes the slack of this column off before the column enters the tree. The search ends
with the round that selects a free column. -/
namespace LinearAssignment.Search

/-- A round, from the state before its row is compared to the state with its column in the tree. -/
structure Round (α : Type) (m n : Nat) where
  row : Fin m
  before : Search α m n
  col : Fin n
  after : Search α m n

variable [Scalar α] {costs : Grid α m n} {matching : Matching m n}

namespace Round

def compared (round : Round α m n) (costs : Grid α m n) : Search α m n :=
  round.before.relax costs round.row

/-- The slack of the selected column. The potentials move by it if it is positive. -/
def step (round : Round α m n) (costs : Grid α m n) : α :=
  (round.compared costs).slack round.col

end Round

def roundsFrom (costs : Grid α m n) (matching : Matching m n) :
    Nat → Fin m → Search α m n → List (Round α m n)
  | 0, _, _ => []
  | count + 1, row, search =>
    match search.advance costs row with
    | none => []
    | some (col, next) =>
      ⟨row, search, col, next⟩ ::
        match matching.rowOf col with
        | none => []
        | some owner => roundsFrom costs matching count owner (next.enter owner)

def history (costs : Grid α m n) (matching : Matching m n) (workspace : Workspace α m n)
    (potentials : Potentials α m n) (root : Fin m) : List (Round α m n) :=
  roundsFrom costs matching n root (start workspace potentials root)

section
variable {row : Fin m} {search next : Search α m n} {col : Fin n}

theorem roundsFrom_of_free (hnext : search.advance costs row = some (col, next))
    (hfree : matching.rowOf col = none) (count : Nat) :
    roundsFrom costs matching (count + 1) row search = [⟨row, search, col, next⟩] := by
  simp [roundsFrom, hnext, hfree]

theorem roundsFrom_of_owned (hnext : search.advance costs row = some (col, next))
    (howner : matching.rowOf col = some owner) (count : Nat) :
    roundsFrom costs matching (count + 1) row search =
      ⟨row, search, col, next⟩ :: roundsFrom costs matching count owner (next.enter owner) := by
  simp [roundsFrom, hnext, howner]

end

/-- Induction on a search that ends: its last round selects a free column, and every other one hands
the search on to an owner. -/
theorem grow_induction {col : Fin n} {last : Search α m n}
    {motive : Nat → Fin m → Search α m n → Prop}
    (hlast : ∀ count row search, search.advance costs row = some (col, last) →
      matching.rowOf col = none → motive (count + 1) row search)
    (hround : ∀ count row search j next owner, search.advance costs row = some (j, next) →
      matching.rowOf j = some owner → motive count owner (next.enter owner) →
        motive (count + 1) row search)
    {count : Nat} {row : Fin m} {search : Search α m n}
    (hgrow : grow costs matching count row search = .ok (col, last)) : motive count row search := by
  induction count generalizing row search with
  | zero => cases hgrow
  | succ count ih =>
    rw [grow] at hgrow
    cases hnext : search.advance costs row with
    | none =>
      rw [hnext] at hgrow
      cases hgrow
    | some found =>
      obtain ⟨j, next⟩ := found
      simp only [hnext] at hgrow
      cases howner : matching.rowOf j with
      | none =>
        simp only [howner, Except.ok.injEq, Prod.mk.injEq] at hgrow
        obtain ⟨rfl, rfl⟩ := hgrow
        exact hlast count row search hnext howner
      | some owner =>
        simp only [howner] at hgrow
        exact hround count row search j next owner hnext howner (ih hgrow)

theorem exists_last_round {count : Nat} {row : Fin m} {search last : Search α m n}
    (hgrow : grow costs matching count row search = .ok (col, last)) :
    ∃ round ∈ (roundsFrom costs matching count row search).getLast?,
      round.col = col ∧ round.after = last ∧ matching.rowOf col = none := by
  refine grow_induction (motive := fun count row search =>
    ∃ round ∈ (roundsFrom costs matching count row search).getLast?,
      round.col = col ∧ round.after = last ∧ matching.rowOf col = none) ?_ ?_ hgrow
  · intro count row search hnext hfree
    rw [roundsFrom_of_free hnext hfree]
    exact ⟨_, rfl, rfl, rfl, hfree⟩
  · rintro count row search j next owner hnext howner ⟨round, hround, hlast⟩
    rw [roundsFrom_of_owned hnext howner]
    refine ⟨round, ?_, hlast⟩
    rw [List.getLast?_cons, Option.mem_def.mp hround]
    rfl

theorem invariant_of_mem_rounds (inv : Fin m → Search α m n → Prop)
    (hstep : ∀ row search col next owner, inv row search →
      search.advance costs row = some (col, next) → matching.rowOf col = some owner →
        inv owner (next.enter owner))
    {count : Nat} {row : Fin m} {search : Search α m n} (hinv : inv row search)
    {round : Round α m n} (hround : round ∈ roundsFrom costs matching count row search) :
    inv round.row round.before ∧
      round.before.advance costs round.row = some (round.col, round.after) := by
  induction count generalizing row search with
  | zero => cases hround
  | succ count ih =>
    rw [roundsFrom] at hround
    cases hnext : search.advance costs row with
    | none =>
      rw [hnext] at hround
      cases hround
    | some found =>
      obtain ⟨j, next⟩ := found
      simp only [hnext] at hround
      rcases List.mem_cons.mp hround with rfl | hlater
      · exact ⟨hinv, hnext⟩
      · cases howner : matching.rowOf j with
        | none =>
          rw [howner] at hlater
          cases hlater
        | some owner =>
          rw [howner] at hlater
          exact ih (hstep row search j next owner hinv hnext howner) hlater

/-- The invariant holds when the last round begins, whose column is free. -/
theorem grow_last (inv : Fin m → Search α m n → Prop)
    (hstep : ∀ row search col next owner, inv row search →
      search.advance costs row = some (col, next) → matching.rowOf col = some owner →
        inv owner (next.enter owner))
    {rounds : Nat} {row : Fin m} {search last : Search α m n} (hinv : inv row search)
    (hgrow : grow costs matching rounds row search = .ok (col, last)) :
    ∃ row search, inv row search ∧ search.advance costs row = some (col, last) ∧
      matching.rowOf col = none := by
  obtain ⟨round, hround, rfl, rfl, hfree⟩ := exists_last_round hgrow
  obtain ⟨hbefore, hafter⟩ := invariant_of_mem_rounds inv hstep hinv (List.mem_of_getLast? hround)
  exact ⟨_, _, hbefore, hafter, hfree⟩

end LinearAssignment.Search
