import LinProg.Proofs.Tableau.Lawful

/-!
# Dense storage is lawful

The laws hold whatever values are left in the rows beyond the width, and however short a row is:
`get` reads zero there and no operation brings such a value back.
-/

namespace LinProg.Dense

variable {α : Type}

theorem row_of_size_le {t : Dense α} {i : Nat} (h : t.rows.size ≤ i) : t.row i = #[] := by
  simp [row, Array.getD_eq_getD_getElem?, h]

theorem row_mapIdx (f : Nat → Array α → Array α) (t : Dense α) (i : Nat) (w : Nat) :
    (Dense.mk (t.rows.mapIdx f) w).row i = if i < t.rows.size then f i (t.row i) else #[] := by
  by_cases h : i < t.rows.size <;> simp [row, Array.getD_eq_getD_getElem?, h]

theorem row_modify (f : Array α → Array α) (t : Dense α) (r i : Nat) (w : Nat) :
    (Dense.mk (t.rows.modify r f) w).row i =
      if i = r ∧ i < t.rows.size then f (t.row i) else t.row i := by
  simp only [row, Array.getD_eq_getD_getElem?, Array.getElem?_modify]
  by_cases hr : i = r
  · subst hr
    by_cases h : i < t.rows.size <;> simp [h]
  · simp [hr, Ne.symm hr]

variable [Scalar α]

theorem get_eq (t : Dense α) (i j : Nat) :
    t.get i j = if j < t.width then (t.row i).getD j 0 else 0 := rfl

theorem get_of_lt {t : Dense α} {i j : Nat} (h : j < t.width) : t.get i j = (t.row i).getD j 0 := by
  rw [get_eq, if_pos h]

theorem getD_ofFn {w : Nat} (f : Fin w → α) {j : Nat} (h : j < w) :
    (Array.ofFn f).getD j 0 = f ⟨j, h⟩ := by
  simp [Array.getD_eq_getD_getElem?, h]

theorem getD_write (values : Array α) (j k : Nat) (x : α) :
    (write values j x).getD k 0 = if k = j then x else values.getD k 0 := by
  simp only [write, Array.getD_eq_getD_getElem?, Array.getElem?_setIfInBounds,
    Array.size_rightpad]
  by_cases hk : k = j
  · subst hk
    simp [show k < max (k + 1) values.size by omega]
  · rw [if_neg (Ne.symm hk), if_neg hk]
    simp only [Array.rightpad, Array.getElem?_append, Array.getElem?_replicate]
    by_cases hs : k < values.size
    · simp [hs]
    · by_cases hj : k - values.size < j + 1 - values.size <;> simp [hs, hj]

theorem getD_setIfInBounds_zero (values : Array α) (j k : Nat) :
    (values.setIfInBounds j 0).getD k 0 = if k = j then 0 else values.getD k 0 := by
  simp only [Array.getD_eq_getD_getElem?, Array.getElem?_setIfInBounds]
  by_cases hk : k = j
  · subst hk
    by_cases hs : k < values.size <;> simp [hs]
  · rw [if_neg (Ne.symm hk), if_neg hk]

/-! ## Rows and columns -/

theorem get_removeRow (t : Dense α) (r i j : Nat) :
    (t.removeRow r).get i j = if i < r then t.get i j else t.get (i + 1) j := by
  have hrow : (t.removeRow r).row i = if i < r then t.row i else t.row (i + 1) := by
    simp only [row, removeRow, Array.getD_eq_getD_getElem?, Array.eraseIdxIfInBounds]
    split
    next hr =>
      rw [Array.getElem?_eraseIdx]
      split <;> rfl
    next hr =>
      split
      next => rfl
      next hi => rw [Array.getElem?_eq_none (by omega), Array.getElem?_eq_none (by omega)]
  simp only [get_eq, hrow]
  show (if j < t.width then _ else _) = _
  split <;> split <;> rfl

theorem get_addColumn (t : Dense α) (i j : Nat) : t.addColumn.get i j = t.get i j := by
  have hrow : (t.addColumn.row i).getD j 0 = if j = t.width then 0 else (t.row i).getD j 0 := by
    by_cases hi : i < t.rows.size
    · have : t.addColumn.row i = (t.row i).setIfInBounds t.width 0 := by
        simp [row, addColumn, Array.getD_eq_getD_getElem?, hi]
      rw [this, getD_setIfInBounds_zero]
    · rw [row_of_size_le (by simp [addColumn]; omega), row_of_size_le (by omega)]
      simp
  rw [get_eq, hrow, get_eq]
  show (if j < t.width + 1 then _ else _) = _
  by_cases h1 : j = t.width
  · simp [h1]
  · by_cases h2 : j < t.width
    · simp [h1, h2, show j < t.width + 1 by omega]
    · simp [h2, show ¬j < t.width + 1 by omega]

theorem get_truncateColumns (t : Dense α) (w i j : Nat) :
    (t.truncateColumns w).get i j = if j < w then t.get i j else 0 := by
  rw [get_eq, get_eq]
  show (if j < min w t.width then (t.row i).getD j 0 else 0) = _
  by_cases h1 : j < w <;> by_cases h2 : j < t.width <;> simp [h1, h2]

theorem get_ofRows (rows : List (List α)) (i j : Nat) :
    (ofRows rows).get i j =
      if j < (rows.head?.getD []).length then (rows.getD i []).getD j 0 else 0 := by
  have hrow : (ofRows rows).row i = (rows.getD i []).toArray := by
    by_cases hi : i < rows.length <;> simp [row, ofRows, Array.getD_eq_getD_getElem?, hi]
  rw [get_eq, hrow]
  simp [ofRows, Array.getD_eq_getD_getElem?]

theorem get_set (t : Dense α) (r c : Nat) (x : α) (i j : Nat) :
    (t.set r c x).get i j =
      if i = r ∧ j = c ∧ i < t.rows.size ∧ j < t.width then x else t.get i j := by
  unfold set
  split
  next hc =>
    by_cases hj : j < t.width
    · rw [get_of_lt (by exact hj), row_modify, get_of_lt hj]
      by_cases hi : i = r ∧ i < t.rows.size
      · rw [if_pos hi, getD_write]
        simp only [hi.1, hj, true_and, and_true, show r < t.rows.size from hi.1 ▸ hi.2]
      · rw [if_neg hi, if_neg (fun h => hi ⟨h.1, h.2.2.1⟩)]
    · simp [get_eq, hj]
  next hc =>
    rw [if_neg]
    rintro ⟨-, rfl, -, hj⟩
    exact hc hj

/-! ## Pivots -/

section Exact

variable [ExactScalar α]

theorem getD_normalize (values : Array α) {w c j : Nat} {p : α} (hp : values.getD c 0 = p)
    (h0 : p ≠ 0) (hj : j < w) : (normalize w c p values).getD j 0 = values.getD j 0 / p := by
  unfold normalize
  split
  next h1 =>
    rw [(ExactScalar.isOne_iff p).1 h1, ExactScalar.div_one]
  next =>
    rw [getD_ofFn _ hj]
    dsimp only
    split
    next hz => rw [(ExactScalar.isZero_iff _).1 hz, ExactScalar.zero_div]
    next =>
      split
      next hc => subst hc; rw [hp, ExactScalar.div_self p h0]
      next => rfl

theorem getD_eliminate (pivotRow values : Array α) {w c j : Nat} (hc : pivotRow.getD c 0 = 1)
    (hj : j < w) :
    (eliminate w c pivotRow values).getD j 0 =
      values.getD j 0 - values.getD c 0 * pivotRow.getD j 0 := by
  unfold eliminate
  dsimp only
  split
  next hz => rw [(ExactScalar.isZero_iff _).1 hz, ExactScalar.zero_mul, ExactScalar.sub_zero]
  next =>
    rw [getD_ofFn _ hj]
    dsimp only
    split
    next hz => rw [(ExactScalar.isZero_iff _).1 hz, ExactScalar.mul_zero, ExactScalar.sub_zero]
    next =>
      split
      next h => subst h; rw [hc, ExactScalar.mul_one, ExactScalar.sub_self]
      next => rw [ExactScalar.settle_eq]

theorem get_pivot (t : Dense α) (r c i j : Nat) (h : t.get r c ≠ 0) :
    (t.pivot r c).get i j =
      if i = r then t.get r j / t.get r c
      else t.get i j - t.get i c * (t.get r j / t.get r c) := by
  have hz : ¬Scalar.isZero (t.get r c) = true := fun hz => h ((ExactScalar.isZero_iff _).1 hz)
  have hc : c < t.width := by
    by_contra hc
    exact h (if_neg hc)
  have hr : r < t.rows.size := by
    by_contra hr
    rw [get_of_lt hc, row_of_size_le (by omega)] at h
    exact h rfl
  by_cases hj : j < t.width
  · have hp : (t.row r).getD c 0 = t.get r c := (get_of_lt hc).symm
    rw [get_of_lt hj, get_of_lt (i := i) hj, get_of_lt (i := i) hc, pivot, if_neg hz]
    rw [get_of_lt (by exact hj), row_mapIdx]
    have hn {k : Nat} : k < t.width → _ := getD_normalize (t.row r) hp h
    by_cases hi : i = r
    · subst hi
      rw [if_pos hr, if_pos rfl, if_pos rfl, hn hj]
    · rw [if_neg hi, if_neg hi]
      split
      next => rw [getD_eliminate _ _ (by rw [hn hc, hp, ExactScalar.div_self _ h]) hj, hn hj]
      next hs =>
        rw [row_of_size_le (by omega)]
        simp [ExactScalar.zero_mul, ExactScalar.sub_zero]
  · have hout (u : Dense α) (hu : u.width = t.width) (k : Nat) : u.get k j = 0 :=
      if_neg (by omega)
    rw [hout (t.pivot r c) (by rw [pivot, if_neg hz]), hout t rfl, hout t rfl]
    simp [ExactScalar.zero_div, ExactScalar.mul_zero, ExactScalar.sub_zero]

theorem get_negateRow (t : Dense α) (r i j : Nat) :
    (t.negateRow r).get i j = if i = r then -t.get i j else t.get i j := by
  by_cases hj : j < t.width
  · rw [negateRow, get_of_lt (by exact hj), row_modify, get_of_lt hj]
    by_cases hi : i = r ∧ i < t.rows.size
    · rw [if_pos hi, if_pos hi.1, getD_ofFn _ hj]
    · rw [if_neg hi]
      split
      next hr =>
        rw [row_of_size_le (by omega)]
        simp [ExactScalar.neg_zero]
      next => rfl
  · simp [get_eq, negateRow, hj, ExactScalar.neg_zero]

instance : LawfulTableau (Dense α) where
  get_ofRows := get_ofRows
  get_row_outside t i j h := by
    show t.get i j = 0
    rw [get_eq, row_of_size_le h]
    simp
  get_column_outside t i j h := if_neg (Nat.not_lt.2 h)
  get_set := get_set
  get_pivot := get_pivot
  get_negateRow := get_negateRow
  get_removeRow := get_removeRow
  get_addColumn := get_addColumn
  get_truncateColumns := get_truncateColumns

end Exact

end LinProg.Dense
