/-! Entries of vectors, read by an index that carries its own bound. -/
namespace LinearAssignment

@[simp] theorem get_ofFn (values : Fin n → α) (i : Fin n) :
    (Vector.ofFn values).get i = values i := by
  change (Vector.ofFn values)[i.val] = values i
  simp

@[simp] theorem get_replicate (value : α) (i : Fin n) :
    (Vector.replicate n value).get i = value := by
  change (Vector.replicate n value)[i.val] = value
  simp

@[simp] theorem get_set (values : Vector α n) (j i : Fin n) (value : α) :
    (values.set j.val value j.isLt).get i = if i = j then value else values.get i := by
  change (values.set j.val value j.isLt)[i.val] = if i = j then value else values[i.val]
  simp [Vector.getElem_set, Fin.ext_iff, eq_comm]

theorem get_cast (values : Vector α m) (h : m = n) (i : Fin n) :
    (values.cast h).get i = values.get (i.cast h.symm) := by
  subst h
  rfl

theorem ext_get {left right : Vector α n} (h : ∀ i, left.get i = right.get i) : left = right := by
  apply Vector.ext
  intro i hi
  exact h ⟨i, hi⟩

end LinearAssignment
