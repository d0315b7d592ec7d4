import LinearAssignment.Fault
import Mathlib.Data.List.FinRange
import Mathlib.Logic.Function.Basic

/-! Arrays whose entries are read and written through a check of the number that names them, and
loops over them. A loop over different numbers in range gives no fault, and finds every entry as
it was before the loop began. -/
namespace LinearAssignment

def lookup (values : Array β) (index : Nat) : Except Fault β :=
  (checkIndex values.size index).map fun i => values[i.val]

def write (values : Array β) (index : Nat) (value : β) : Except Fault (Array β) :=
  (checkIndex values.size index).map fun i => values.set i.val value i.isLt

def modify (values : Array β) (index : Nat) (f : β → β) : Except Fault (Array β) := do
  write values index (f (← lookup values index))

section
variable (values : Fin n → β) (i : Fin n)

@[simp] theorem lookup_ofFn : lookup (Array.ofFn values) i.val = .ok (values i) := by
  have hsize : i.val < (Array.ofFn values).size := by simp
  simp [lookup, checkIndex_of_lt hsize, Except.map]

@[simp] theorem write_ofFn (value : β) :
    write (Array.ofFn values) i.val value = .ok (Array.ofFn (Function.update values i value)) := by
  have hsize : i.val < (Array.ofFn values).size := by simp
  rw [write, checkIndex_of_lt hsize, Except.map]
  congr 1
  apply Array.ext
  · simp
  · intro k hk hk'
    simp [Array.getElem_set, Function.update_apply, Fin.ext_iff, eq_comm]

@[simp] theorem modify_ofFn (f : β → β) :
    modify (Array.ofFn values) i.val f =
      .ok (Array.ofFn (Function.update values i (f (values i)))) := by
  simp [modify, bind, Except.bind]

end

theorem toArray_eq_ofFn (values : Vector β n) : values.toArray = Array.ofFn values.get := by
  apply Array.ext
  · simp
  · intro k hk hk'
    simp [Vector.get]

section
variable {encode : (Fin n → γ) → σ} {loop : σ → Nat → Except Fault σ} {f : Fin n → γ → γ}

/-- A loop over different indices, each of which replaces the entry that it finds there. -/
theorem foldlM_eq_ok (hstep : ∀ values i,
      loop (encode values) i.val = .ok (encode (Function.update values i (f i (values i)))))
    {indices : List (Fin n)} (h : indices.Nodup) (values : Fin n → γ) :
    (indices.map Fin.val).foldlM loop (encode values) =
      .ok (encode fun i => if indices.contains i then f i (values i) else values i) := by
  induction indices generalizing values with
  | nil => simp [pure, Except.pure]
  | cons i rest ih =>
    obtain ⟨hi, hrest⟩ := List.nodup_cons.mp h
    rw [List.map_cons, List.foldlM_cons, hstep]
    refine (ih hrest _).trans ?_
    congr 2
    funext j
    by_cases hj : j = i
    · subst hj
      simp [hi]
    · simp [hj]

theorem foldlM_range_eq_ok (hstep : ∀ values i,
      loop (encode values) i.val = .ok (encode (Function.update values i (f i (values i)))))
    (values : Fin n → γ) :
    (List.range n).foldlM loop (encode values) = .ok (encode fun i => f i (values i)) := by
  rw [← List.map_coe_finRange_eq_range, foldlM_eq_ok hstep (List.nodup_finRange n)]
  simp

end

theorem foldlM_modify (values : Fin n → β) (f : β → β) {indices : List (Fin n)}
    (h : indices.Nodup) :
    (indices.map Fin.val).foldlM (fun values i => modify values i f) (Array.ofFn values) =
      .ok (Array.ofFn fun i => if indices.contains i then f (values i) else values i) :=
  foldlM_eq_ok (f := fun _ => f) (fun values i => modify_ofFn values i f) h values

end LinearAssignment
