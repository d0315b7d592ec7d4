import LinearAssignment.Matching.Augment
import LinearAssignment.Proofs.Embedding
import LinearAssignment.Proofs.Exact
import LinearAssignment.Proofs.Search.Rounds

/-! A search that remembers no slacks. Before each selection it works out the slacks of every column
to all rows of the tree again, under the potentials as they are then, and takes the first row that
has the least of them as the parent. -/
namespace LinearAssignment

/-- What a round decides: the nearest column, the row through which it is reached, the slack between
them, and the potentials once this slack is taken off if it is positive. -/
structure Selection (α : Type) (m n : Nat) where
  col : Fin n
  parent : Nat
  step : α
  potentials : Potentials α m n

/-- A tree whose rows stand in the order in which they entered, and the selections made so far,
newest first. -/
structure PlainSearch (α : Type) (m n : Nat) where
  potentials : Potentials α m n
  rows : List (Fin m)
  made : List (Selection α m n)

namespace PlainSearch

def cols (search : PlainSearch α m n) : List (Fin n) := search.made.map Selection.col

def outside (search : PlainSearch α m n) : List (Fin n) :=
  (List.finRange n).filter fun j => !search.cols.contains j

def parent (search : PlainSearch α m n) (j : Fin n) : Nat :=
  match search.made.find? fun selection => selection.col == j with
  | some selection => selection.parent
  | none => 0

def enter (search : PlainSearch α m n) (row : Fin m) : PlainSearch α m n :=
  { search with rows := search.rows ++ [row] }

@[simp] theorem made_enter (search : PlainSearch α m n) (row : Fin m) :
    (search.enter row).made = search.made := rfl

variable [Scalar α] (costs : Grid α m n)

def steps (search : PlainSearch α m n) : List α :=
  (search.made.reverse.map Selection.step).filter (0 < ·)

def gap (search : PlainSearch α m n) (j : Fin n) : α :=
  Scalar.minimum (search.rows.map fun i => search.potentials.slack costs i j)

theorem gap_enter (search : PlainSearch α m n) (row : Fin m) (j : Fin n) :
    (search.enter row).gap costs j =
      if search.potentials.slack costs row j < search.gap costs j then
        search.potentials.slack costs row j else search.gap costs j := by
  unfold gap enter
  rw [List.map_append, List.map_singleton, Scalar.minimum_concat]

def nearest? (search : PlainSearch α m n) : Option (Fin n) :=
  search.outside.find? fun j => search.outside.all fun k => search.gap costs j ≤ search.gap costs k

variable [DecidableEq α]

/-- The row with the least slack to the column, the first that entered of equal ones. -/
def holder? (search : PlainSearch α m n) (j : Fin n) : Option (Fin m) :=
  search.rows.find? fun i => search.potentials.slack costs i j = search.gap costs j

theorem slack_holder {search : PlainSearch α m n} {costs : Grid α m n}
    (h : search.holder? costs j = some i) :
    search.potentials.slack costs i j = search.gap costs j :=
  of_decide_eq_true (List.find?_some (p := fun i =>
    decide (search.potentials.slack costs i j = search.gap costs j)) h)

def select (search : PlainSearch α m n) (col : Fin n) (row : Fin m) : PlainSearch α m n :=
  let step := search.gap costs col
  let potentials :=
    if 0 < step then search.potentials.shift search.rows search.cols step else search.potentials
  { search with potentials, made := ⟨col, row.val, step, potentials⟩ :: search.made }

def advance (search : PlainSearch α m n) : Option (Fin n × PlainSearch α m n) := do
  let col ← search.nearest? costs
  let row ← search.holder? costs col
  return (col, search.select costs col row)

def grow (matching : Matching m n) :
    Nat → PlainSearch α m n → Except Fault (Fin n × PlainSearch α m n)
  | 0, _ => .error .noColumnLeft
  | rounds + 1, search =>
    match search.advance costs with
    | none => .error .noColumnLeft
    | some (col, next) =>
      match matching.rowOf col with
      | none => .ok (col, next)
      | some owner => grow matching rounds (next.enter owner)

def phase (matching : Matching m n) (potentials : Potentials α m n) (root : Fin m) :
    Except Fault (Fin n × PlainSearch α m n × Matching m n) := do
  let (col, search) ← grow costs matching n ⟨potentials, [root], []⟩
  let parents := Vector.ofFn search.parent
  let matching ← matching.augment root.val col.val parents.toArray
  return (col, search, matching)

end PlainSearch

namespace Exact

variable [Field K] [LinearOrder K]

/-- Keeping whichever is not greater, from the left, finds the first of the least. -/
theorem foldl_least (f : ι → Exact K) (first : ι) (rest : List ι) :
    (first :: rest).find? (fun j => (first :: rest).all fun k => f j ≤ f k) =
      some (rest.foldl (fun best j => if f best ≤ f j then best else j) first) := by
  simp only [← List.decide_forall_mem]
  induction rest using List.reverseRecOn with
  | nil => simp [Exact.le_refl]
  | append_singleton rest last ih =>
    rw [List.foldl_append, List.foldl_cons, List.foldl_nil]
    generalize rest.foldl (fun best j => if f best ≤ f j then best else j) first = best at ih ⊢
    obtain ⟨hbest, before, after, hsplit, hbefore⟩ := List.find?_eq_some_iff_append.mp ih
    have hleast : ∀ k ∈ first :: rest, f best ≤ f k := of_decide_eq_true hbest
    have hmore (j : ι) : (∀ k ∈ first :: rest ++ [last], f j ≤ f k) ↔
        (∀ k ∈ first :: rest, f j ≤ f k) ∧ f j ≤ f last := by
      rw [List.forall_mem_append, List.forall_mem_singleton]
    simp only [← List.cons_append, hmore]
    split
    · rename_i hle
      rw [List.find?_eq_some_iff_append]
      refine ⟨decide_eq_true ⟨hleast, hle⟩, before, after ++ [last], ?_, fun j hj => ?_⟩
      · rw [hsplit, List.append_assoc, List.cons_append]
      · have hnot := of_decide_eq_false ((Bool.not_eq_true' _).mp (hbefore j hj))
        exact (Bool.not_eq_true' _).mpr (decide_eq_false fun hall => hnot hall.1)
    · rename_i hnot
      have hlast : f last ≤ f best := (Exact.le_total _ _).resolve_left hnot
      have hnone : (first :: rest).find?
          (fun j => (∀ k ∈ first :: rest, f j ≤ f k) ∧ f j ≤ f last) = none := by
        rw [List.find?_eq_none]
        intro j hj hall
        exact hnot (Exact.le_trans (hleast j hj) (of_decide_eq_true hall).2)
      have hall : (∀ k ∈ first :: rest, f last ≤ f k) ∧ f last ≤ f last :=
        ⟨fun k hk => Exact.le_trans hlast (hleast k hk), Exact.le_refl _⟩
      rw [List.find?_append, hnone, Option.none_or]
      exact List.find?_cons_of_pos (decide_eq_true hall)

theorem find?_minimum_concat {f : ι → Exact K} {rows : List ι} {holder row : ι}
    (h : rows.find? (fun i => f i = Scalar.minimum (rows.map f)) = some holder) :
    (rows ++ [row]).find? (fun i => f i = Scalar.minimum ((rows ++ [row]).map f)) =
      if f row < Scalar.minimum (rows.map f) then some row else some holder := by
  rw [List.map_append, List.map_singleton, Scalar.minimum_concat, List.find?_append]
  split
  · rename_i hlt
    have hnone : rows.find? (fun i => f i = f row) = none := by
      rw [List.find?_eq_none]
      intro i hi heq
      rw [← of_decide_eq_true heq] at hlt
      exact Exact.not_lt.mpr (Exact.minimum_le (List.mem_map_of_mem hi)) hlt
    rw [hnone, Option.none_or]
    exact List.find?_cons_of_pos (decide_eq_true rfl)
  · rw [h, Option.some_or]

theorem minimum_sub [IsStrictOrderedRing K] (f : ι → Exact K) (rows : List ι) (step : K) :
    Scalar.minimum (rows.map fun i => f i - .finite step) =
      Scalar.minimum (rows.map f) - .finite step := by
  have hmap := Scalar.minimum_map (f := fun x : Exact K => x - .finite step)
    (fun x y => Exact.sub_finite_lt x y step) rfl (rows.map f)
  rwa [List.map_map] at hmap

end Exact

theorem PlainSearch.holder?_enter [Field K] [LinearOrder K] {costs : Grid (Exact K) m n}
    {plain : PlainSearch (Exact K) m n} {holder : Fin m} {j : Fin n}
    (h : plain.holder? costs j = some holder) (row : Fin m) :
    (plain.enter row).holder? costs j =
      if plain.potentials.slack costs row j < plain.gap costs j then some row else some holder :=
  Exact.find?_minimum_concat h

namespace Search

def Round.selection [Scalar α] (round : Round α m n) (costs : Grid α m n) : Selection α m n where
  col := round.col
  parent := (round.compared costs).parent round.col
  step := round.step costs
  potentials := round.after.potentials

theorem nearest?_eq_find? [Field K] [LinearOrder K] (search : Search (Exact K) m n) :
    search.nearest? = search.outside.find? fun j =>
      search.outside.all fun k => search.slack j ≤ search.slack k := by
  unfold nearest?
  split
  · rename_i hnil
    rw [hnil]
    rfl
  · rename_i first rest hcons
    rw [hcons]
    have hnearer : search.nearer =
        fun best j => if search.slack best ≤ search.slack j then best else j := rfl
    rw [hnearer]
    convert (Exact.foldl_least search.slack first rest).symm

end Search
end LinearAssignment
