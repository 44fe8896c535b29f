import LinProg.Proofs.Tableau.Lawful

/-!
# Columnar storage is lawful

A column fits a height if its symbol names a row below the height or it has one value per row.  All
operations keep columns that fit (`WellFormed`), and on such storage they read as the laws say:
a symbol reads like the values it stands for, and it is spelled out before one of them changes.
`ProperColumnar` is storage of this kind, and it is lawful.
-/

namespace LinProg

namespace Column

variable {α : Type}

/-- The one of a unit vector is in one of the rows, and stored values are one per row. -/
def Fits (height : Nat) : Column α → Prop
  | zero => True
  | unit one => one < height
  | stored values => values.size = height

variable [Scalar α]

/-! ## Symbols and values -/

theorem getD_values (c : Column α) {height i : Nat} (hi : i < height) :
    (c.values height).getD i 0 = c.get i := by
  simp [values, Array.getD_eq_getD_getElem?, hi]

theorem get_expandAt (c : Column α) (row : Nat) {height i : Nat} (hi : i < height) :
    (c.expandAt height row).get i = c.get i := by
  unfold expandAt
  split
  · exact c.getD_values hi
  · rfl

theorem Fits.expandAt {c : Column α} {height : Nat} (h : c.Fits height) (row : Nat) :
    (c.expandAt height row).Fits height := by
  unfold Column.expandAt
  split
  · exact Array.size_ofFn
  · exact h

theorem expandAt_cases {c : Column α} {height : Nat} (h : c.Fits height) (row : Nat) :
    (∃ values, c.expandAt height row = stored values ∧ values.size = height) ∨
      (c.expandAt height row = c ∧ c.get row = 0 ∧
        ∀ values, c.expandAt height row ≠ stored values) := by
  cases c with
  | zero => exact .inr ⟨rfl, rfl, fun _ h => (by cases h)⟩
  | stored values => exact .inl ⟨values, rfl, h⟩
  | unit one =>
    by_cases hone : one = row
    · exact .inl ⟨_, if_pos (by simpa [isUnitAt] using hone), Array.size_ofFn⟩
    · have heq : (unit one : Column α).expandAt height row = unit one :=
        if_neg (by simpa [isUnitAt] using hone)
      refine .inr ⟨heq, if_neg hone, fun values h => ?_⟩
      rw [heq] at h
      cases h

theorem getD_setIfInBounds (values : Array α) {i row : Nat} (x : α) (hrow : row < values.size) :
    (values.setIfInBounds row x).getD i 0 = if i = row then x else values.getD i 0 := by
  simp only [Array.getD_eq_getD_getElem?, Array.getElem?_setIfInBounds, eq_comm (a := i)]
  split
  · rfl
  · rfl

theorem getD_eraseIdx (values : Array α) {i row : Nat} :
    (values.eraseIdxIfInBounds row).getD i 0 =
      if i < row then values.getD i 0 else values.getD (i + 1) 0 := by
  simp only [Array.getD_eq_getD_getElem?, Array.eraseIdxIfInBounds]
  split
  next =>
    rw [Array.getElem?_eraseIdx]
    split <;> rfl
  next =>
    split
    next => rfl
    next => rw [Array.getElem?_eq_none (by omega), Array.getElem?_eq_none (by omega)]

/-! ## Removed rows and changes of sign -/

theorem get_eraseRow (c : Column α) (row i : Nat) :
    (c.eraseRow row).get i = if i < row then c.get i else c.get (i + 1) := by
  cases c with
  | zero => exact (ite_self _).symm
  | stored values => exact getD_eraseIdx values
  | unit one =>
    -- the one moves up if its row is below the removed one
    rcases Nat.lt_trichotomy one row with hlt | rfl | hgt
    · grind [eraseRow, get]
    · grind [eraseRow, get]
    · grind [eraseRow, get]

omit [Scalar α] in
theorem Fits.eraseRow {c : Column α} {height row : Nat} (h : c.Fits height) (hrow : row < height) :
    (c.eraseRow row).Fits (height - 1) := by
  cases c with
  | zero => trivial
  | stored values =>
    have hsize : values.size = height := h
    simp [Column.eraseRow, Fits, Array.eraseIdxIfInBounds, hsize, hrow]
  | unit one =>
    have hone : one < height := h
    unfold Column.eraseRow
    dsimp only
    split
    · trivial
    · split
      · show one - 1 < height - 1
        omega
      · show one < height - 1
        omega

section Exact

variable [ExactScalar α]

theorem get_ofValues (values : Array α) (i : Nat) : (ofValues values).get i = values.getD i 0 := by
  have hzero (l : List Nat)
      (hl : ((List.range values.size).filter fun i => !Scalar.isZero (values.getD i 0)) = l)
      (hi : i ∉ l) : values.getD i 0 = 0 := by
    by_cases hlt : i < values.size
    · rw [← hl, List.mem_filter] at hi
      have := mt (And.intro (List.mem_range.2 hlt)) hi
      rwa [Bool.not_eq_true', Bool.not_eq_false, ExactScalar.isZero_iff] at this
    · simp [Array.getD_eq_getD_getElem?, hlt]
  unfold ofValues
  split
  next hl => exact (hzero [] hl List.not_mem_nil).symm
  next one hl =>
    split
    next hone =>
      simp only [get]
      split
      next heq => rw [← heq, (ExactScalar.isOne_iff _).1 hone]
      next hne => exact (hzero [one] hl fun hi => hne (List.mem_singleton.1 hi).symm).symm
    next => rfl
  next => rfl

omit [ExactScalar α] in
theorem fits_ofValues (values : Array α) : (ofValues values).Fits values.size := by
  unfold ofValues
  split
  next => trivial
  next one hl =>
    split
    next =>
      have : one ∈ [one] := List.mem_singleton_self one
      rw [← hl, List.mem_filter] at this
      exact List.mem_range.1 this.1
    next => rfl
  next => rfl

theorem get_negateAt {c : Column α} {height row i : Nat} (h : c.Fits height) (hi : i < height) :
    (c.negateAt height row).get i = if i = row then -c.get i else c.get i := by
  have hget := c.get_expandAt row hi
  unfold negateAt
  rcases expandAt_cases h row with ⟨values, heq, hsize⟩ | ⟨heq, hzero, hsymbol⟩
  · rw [heq] at hget ⊢
    rw [← hget]
    simp only [get, Array.getD_eq_getD_getElem?, Array.getElem?_modify, eq_comm (a := row)]
    split
    next => simp [hsize, hi]
    next => rfl
  · split
    next values hstored => exact absurd hstored (hsymbol values)
    next =>
      rw [hget]
      split
      next hir => rw [hir, hzero, ExactScalar.neg_zero]
      next => rfl

omit [ExactScalar α] in
theorem Fits.negateAt {c : Column α} {height : Nat} (h : c.Fits height) (row : Nat) :
    (c.negateAt height row).Fits height := by
  have := h.expandAt row
  unfold Column.negateAt
  split
  next values heq =>
    rw [heq] at this
    exact (Array.size_modify ..).trans this
  next => exact this

/-! ## Written values -/

theorem get_of_agrees {c : Column α} {row : Nat} {x : α} (h : c.agrees row x = true) :
    c.get row = x := by
  cases c with
  | zero => exact ((ExactScalar.isZero_iff x).1 h).symm
  | stored values => cases h
  | unit one =>
    unfold agrees at h
    dsimp only [get] at h ⊢
    split at h
    next hone => rw [if_pos hone, (ExactScalar.isOne_iff x).1 h]
    next hone => rw [if_neg hone, (ExactScalar.isZero_iff x).1 h]

theorem get_set {c : Column α} {height row i : Nat} (h : c.Fits height) (hrow : row < height)
    (hi : i < height) (x : α) :
    (c.set height row x).get i = if i = row then x else c.get i := by
  have hvalues :
      ((c.values height).setIfInBounds row x).getD i 0 = if i = row then x else c.get i := by
    rw [getD_setIfInBounds _ _ (by simpa [values] using hrow), c.getD_values hi]
  unfold set
  split
  next hagrees =>
    split
    next hir => rw [hir, get_of_agrees hagrees]
    next => rfl
  next hagrees =>
    cases c with
    | zero =>
      dsimp only
      split
      next hone =>
        rw [(ExactScalar.isOne_iff x).1 hone]
        simp only [get, eq_comm (a := row)]
      next => exact hvalues
    | unit one => exact hvalues
    | stored values => exact getD_setIfInBounds values x (h.symm ▸ hrow)

omit [ExactScalar α] in
theorem Fits.set {c : Column α} {height row : Nat} (h : c.Fits height) (hrow : row < height)
    (x : α) : (c.set height row x).Fits height := by
  unfold Column.set
  split
  · exact h
  · cases c with
    | zero =>
      dsimp only
      split
      · exact hrow
      · simp [Fits, values]
    | unit one => simp [Fits, values]
    | stored values => exact (Array.size_setIfInBounds ..).trans h

/-! ## Pivots -/

theorem getD_eliminate (values : Array α) (p : α) (pivotColumn : Nat → α) {row i : Nat}
    (hi : i < values.size) :
    (eliminate row p pivotColumn values).getD i 0 =
      if i = row then values.getD row 0 / p
      else values.getD i 0 - pivotColumn i * (values.getD row 0 / p) := by
  by_cases hz : Scalar.isZero (values.getD row 0) = true
  · have hzero := (ExactScalar.isZero_iff _).1 hz
    rw [eliminate, if_pos hz, hzero, ExactScalar.zero_div, ExactScalar.mul_zero,
      ExactScalar.sub_zero]
    by_cases hir : i = row
    · rw [if_pos hir, hir, hzero]
    · rw [if_neg hir]
  · have hp : (if Scalar.isOne p then values.getD row 0 else values.getD row 0 / p) =
        values.getD row 0 / p := by
      split
      next hone => rw [(ExactScalar.isOne_iff p).1 hone, ExactScalar.div_one]
      next => rfl
    have hvalue : values[i]? = some (values.getD i 0) := by
      rw [Array.getD_eq_getD_getElem?, Array.getElem?_eq_getElem hi, Option.getD_some]
    rw [eliminate, if_neg hz, hp, Array.getD_eq_getD_getElem?, Array.getElem?_mapIdx, hvalue,
      Option.map_some, Option.getD_some]
    refine ite_congr rfl (fun _ => rfl) fun _ => ?_
    split
    next hf => rw [(ExactScalar.isZero_iff _).1 hf, ExactScalar.zero_mul, ExactScalar.sub_zero]
    next => rw [ExactScalar.settle_eq]

theorem get_pivoted {c : Column α} {height row i : Nat} (h : c.Fits height) (hrow : row < height)
    (hi : i < height) (p : α) (pivotColumn : Column α) :
    (c.pivoted height row p pivotColumn).get i =
      if i = row then c.get row / p else c.get i - pivotColumn.get i * (c.get row / p) := by
  have hget := c.get_expandAt row hi
  have hgetRow := c.get_expandAt row hrow
  unfold pivoted
  rcases expandAt_cases h row with ⟨values, heq, hsize⟩ | ⟨heq, hzero, hsymbol⟩
  · rw [heq] at hget hgetRow ⊢
    rw [← hget, ← hgetRow]
    exact getD_eliminate values p pivotColumn.get (hsize.symm ▸ hi)
  · split
    next values hstored => exact absurd hstored (hsymbol values)
    next =>
      rw [hget, hzero, ExactScalar.zero_div, ExactScalar.mul_zero, ExactScalar.sub_zero]
      split
      next hir => rw [hir, hzero]
      next => rfl

omit [ExactScalar α] in
theorem Fits.pivoted {c : Column α} {height : Nat} (h : c.Fits height) (row : Nat) (p : α)
    (pivotColumn : Column α) : (c.pivoted height row p pivotColumn).Fits height := by
  have := h.expandAt row
  unfold Column.pivoted
  split
  next values heq =>
    rw [heq] at this
    show (eliminate _ _ _ _).size = height
    unfold eliminate
    dsimp only
    split
    · exact this
    · exact Array.size_mapIdx.trans this
  next => exact this

end Exact

end Column

/-! ## Columns that fit -/

namespace Columnar

variable {α : Type}

def WellFormed (t : Columnar α) : Prop := ∀ c ∈ t.columns, c.Fits t.height

theorem column_of_lt {t : Columnar α} {j : Nat} (hj : j < t.columns.size) :
    t.column j = t.columns[j] := by
  simp [column, Array.getD_eq_getD_getElem?, hj]

theorem column_of_le {t : Columnar α} {j : Nat} (hj : t.columns.size ≤ j) :
    t.column j = .zero := by
  simp [column, Array.getD_eq_getD_getElem?, hj]

/-- What is missing is a column of zeros, which fits any height. -/
theorem WellFormed.fits {t : Columnar α} (h : t.WellFormed) (j : Nat) :
    (t.column j).Fits t.height := by
  by_cases hj : j < t.columns.size
  · rw [column_of_lt hj]
    exact h _ (Array.getElem_mem hj)
  · rw [column_of_le (by omega)]
    trivial

/-- Columns that are replaced one by one. -/
theorem wellFormed_mapIdx {t : Columnar α} (f : Nat → Column α → Column α) {height : Nat}
    (hf : ∀ j < t.columns.size, (f j (t.column j)).Fits height) :
    WellFormed ⟨t.columns.mapIdx f, height⟩ := by
  intro c hc
  obtain ⟨j, hj, rfl⟩ := Array.mem_mapIdx.1 hc
  rw [← column_of_lt hj]
  exact hf j hj

theorem column_mapIdx (t : Columnar α) (f : Nat → Column α → Column α) (height j : Nat) :
    (Columnar.mk (t.columns.mapIdx f) height).column j =
      if j < t.columns.size then f j (t.column j) else .zero := by
  by_cases hj : j < t.columns.size <;> simp [column, Array.getD_eq_getD_getElem?, hj]

theorem map_eq_mapIdx (f : Column α → Column α) (columns : Array (Column α)) :
    columns.map f = columns.mapIdx fun _ => f := by
  ext j
  · simp
  · simp

theorem modify_eq_mapIdx (f : Column α → Column α) (columns : Array (Column α)) (j : Nat) :
    columns.modify j f = columns.mapIdx fun k c => if k = j then f c else c := by
  ext k
  · simp
  · simp only [Array.getElem_modify, Array.getElem_mapIdx, eq_comm (a := j)]

variable [Scalar α]

theorem get_of_lt {t : Columnar α} {i j : Nat} (hi : i < t.height) :
    t.get i j = (t.column j).get i := if_pos hi

theorem get_of_le {t : Columnar α} {i j : Nat} (hi : t.height ≤ i) : t.get i j = 0 :=
  if_neg (Nat.not_lt.2 hi)

theorem get_of_size_le {t : Columnar α} {i j : Nat} (hj : t.columns.size ≤ j) : t.get i j = 0 := by
  rw [get, column_of_le hj]
  exact ite_self _

/-! ## Operations on storage -/

theorem wellFormed_ofRows (rows : List (List α)) : (ofRows rows).WellFormed := by
  intro c hc
  obtain ⟨j, -, rfl⟩ := Array.mem_ofFn.1 hc
  have := Column.fits_ofValues (rows.map fun values => values.getD j 0).toArray
  rwa [List.size_toArray, List.length_map] at this

theorem size_set (t : Columnar α) (r c : Nat) (x : α) :
    (t.set r c x).columns.size = t.columns.size := ShapedTableau.nrColumns_set t r c x

theorem height_set (t : Columnar α) (r c : Nat) (x : α) : (t.set r c x).height = t.height :=
  ShapedTableau.nrRows_set t r c x

theorem WellFormed.set {t : Columnar α} (h : t.WellFormed) (r c : Nat) (x : α) :
    (t.set r c x).WellFormed := by
  unfold Columnar.set
  split
  next hr =>
    rw [modify_eq_mapIdx]
    refine wellFormed_mapIdx _ fun j _ => ?_
    split
    · exact (h.fits j).set hr x
    · exact h.fits j
  next => exact h

theorem WellFormed.negateRow {t : Columnar α} (h : t.WellFormed) (r : Nat) :
    (t.negateRow r).WellFormed := by
  unfold Columnar.negateRow
  rw [map_eq_mapIdx]
  exact wellFormed_mapIdx _ fun j _ => (h.fits j).negateAt r

omit [Scalar α] in
theorem WellFormed.removeRow {t : Columnar α} (h : t.WellFormed) (r : Nat) :
    (t.removeRow r).WellFormed := by
  unfold Columnar.removeRow
  split
  next hr =>
    rw [map_eq_mapIdx]
    exact wellFormed_mapIdx _ fun j _ => (h.fits j).eraseRow hr
  next => exact h

omit [Scalar α] in
theorem WellFormed.addColumn {t : Columnar α} (h : t.WellFormed) : t.addColumn.WellFormed := by
  intro c hc
  rcases Array.mem_push.1 hc with hc | rfl
  · exact h c hc
  · trivial

omit [Scalar α] in
theorem WellFormed.truncateColumns {t : Columnar α} (h : t.WellFormed) (w : Nat) :
    (t.truncateColumns w).WellFormed := by
  intro c hc
  change c ∈ t.columns.take w at hc
  rw [Array.take_eq_extract] at hc
  obtain ⟨j, hj, rfl⟩ := Array.mem_extract_iff_getElem.1 hc
  exact h _ (Array.getElem_mem _)

theorem get_removeRow (t : Columnar α) (r i j : Nat) :
    (t.removeRow r).get i j = if i < r then t.get i j else t.get (i + 1) j := by
  unfold removeRow
  split
  next hr =>
    rw [map_eq_mapIdx]
    by_cases hj : j < t.columns.size
    · simp only [get, column_mapIdx, if_pos hj, Column.get_eraseRow]
      by_cases hi : i < r
      · rw [if_pos hi, if_pos hi, if_pos (by omega), if_pos (by omega)]
      · rw [if_neg hi, if_neg hi]
        exact ite_congr (propext (by omega)) (fun _ => rfl) fun _ => rfl
    · rw [get_of_size_le (by simpa using hj), get_of_size_le (by omega),
        get_of_size_le (by omega), ite_self]
  next hr =>
    split
    next => rfl
    next => rw [get_of_le (by omega), get_of_le (by omega)]

theorem get_addColumn (t : Columnar α) (i j : Nat) : t.addColumn.get i j = t.get i j := by
  have hcolumn : t.addColumn.column j = t.column j := by
    simp only [addColumn, column, Array.getD_eq_getD_getElem?, Array.getElem?_push]
    split
    next hj => rw [Array.getElem?_eq_none hj.ge]; rfl
    next => rfl
  rw [get, hcolumn]
  rfl

theorem get_truncateColumns (t : Columnar α) (w i j : Nat) :
    (t.truncateColumns w).get i j = if j < w then t.get i j else 0 := by
  have hcolumn : (t.truncateColumns w).column j = if j < w then t.column j else .zero := by
    simp only [truncateColumns, column, Array.getD_eq_getD_getElem?, Array.take_eq_extract,
      Array.getElem?_extract, Nat.zero_add, Nat.sub_zero]
    by_cases hj : j < w
    · rw [if_pos hj]
      split
      next => rfl
      next hs => rw [Array.getElem?_eq_none (by omega)]
    · rw [if_neg hj, if_neg (by omega)]
      rfl
  rw [get, hcolumn]
  by_cases hj : j < w
  · rw [if_pos hj, if_pos hj]
    rfl
  · rw [if_neg hj, if_neg hj]
    exact ite_self _

section Exact

variable [ExactScalar α]

theorem get_ofRows (rows : List (List α)) (i j : Nat) :
    (ofRows rows).get i j =
      if j < (rows.head?.getD []).length then (rows.getD i []).getD j 0 else 0 := by
  have hcolumn : (ofRows rows).column j = if j < (rows.head?.getD []).length then
      .ofValues (rows.map fun values => values.getD j 0).toArray else .zero := by
    simp only [ofRows, column, Array.getD_eq_getD_getElem?, Array.getElem?_ofFn]
    split <;> rfl
  rw [get, hcolumn]
  show (if i < rows.length then _ else _) = _
  by_cases hj : j < (rows.head?.getD []).length
  · rw [if_pos hj, if_pos hj, Column.get_ofValues]
    by_cases hi : i < rows.length <;> simp [Array.getD_eq_getD_getElem?, hi]
  · rw [if_neg hj, if_neg hj]
    exact ite_self _

theorem get_set {t : Columnar α} (h : t.WellFormed) (r c : Nat) (x : α) (i j : Nat) :
    (t.set r c x).get i j =
      if i = r ∧ j = c ∧ i < t.height ∧ j < t.columns.size then x else t.get i j := by
  by_cases hj : j < t.columns.size
  · by_cases hi : i < t.height
    · unfold set
      split
      next hr =>
        rw [modify_eq_mapIdx, get_of_lt (by exact hi), get_of_lt hi, column_mapIdx, if_pos hj]
        by_cases hc : j = c
        · rw [if_pos hc, Column.get_set (h.fits j) hr hi]
          refine ite_congr (propext ?_) (fun _ => rfl) fun _ => rfl
          exact ⟨fun hir => ⟨hir, hc, hi, hj⟩, fun hall => hall.1⟩
        · rw [if_neg hc, if_neg fun hall => hc hall.2.1]
      next hr =>
        rw [if_neg]
        rintro ⟨rfl, -⟩
        exact hr hi
    · rw [get_of_le (by rw [height_set]; omega), get_of_le (by omega),
        if_neg fun hall => hi hall.2.2.1]
  · rw [get_of_size_le (by rw [size_set]; omega), get_of_size_le (by omega),
      if_neg fun hall => hj hall.2.2.2]

theorem get_negateRow {t : Columnar α} (h : t.WellFormed) (r i j : Nat) :
    (t.negateRow r).get i j = if i = r then -t.get i j else t.get i j := by
  have hzero : (if i = r then -(0 : α) else 0) = 0 := by rw [ExactScalar.neg_zero, ite_self]
  unfold negateRow
  rw [map_eq_mapIdx]
  by_cases hj : j < t.columns.size
  · by_cases hi : i < t.height
    · rw [get_of_lt (by exact hi), get_of_lt hi, column_mapIdx, if_pos hj,
        Column.get_negateAt (h.fits j) hi]
    · rw [get_of_le (by simpa using hi), get_of_le (by omega), hzero]
  · rw [get_of_size_le (by simpa using hj), get_of_size_le (by omega), hzero]

/-- A pivot on zero, which any value outside of the matrix is, does nothing. -/
theorem pivot_of_zero {t : Columnar α} {r c : Nat} (h : t.get r c = 0) : t.pivot r c = t :=
  if_pos ((ExactScalar.isZero_iff _).2 h)

theorem pivot_of_ne_zero {t : Columnar α} {r c : Nat} (h : t.get r c ≠ 0) :
    t.pivot r c = ⟨t.columns.mapIdx fun j column =>
      if j = c then .unit r else column.pivoted t.height r (t.get r c) (t.column c), t.height⟩ :=
  if_neg (mt (ExactScalar.isZero_iff _).1 h)

omit [ExactScalar α] in
theorem row_lt_of_get_ne_zero {t : Columnar α} {r c : Nat} (h : t.get r c ≠ 0) : r < t.height := by
  by_contra hr
  exact h (get_of_le (Nat.not_lt.1 hr))

theorem WellFormed.pivot {t : Columnar α} (h : t.WellFormed) (r c : Nat) :
    (t.pivot r c).WellFormed := by
  by_cases h0 : t.get r c = 0
  · rwa [pivot_of_zero h0]
  · rw [pivot_of_ne_zero h0]
    refine wellFormed_mapIdx _ fun j _ => ?_
    split
    · exact row_lt_of_get_ne_zero h0
    · exact (h.fits j).pivoted r _ _

theorem get_pivot {t : Columnar α} (h : t.WellFormed) {r c : Nat} (i j : Nat)
    (h0 : t.get r c ≠ 0) :
    (t.pivot r c).get i j =
      if i = r then t.get r j / t.get r c
      else t.get i j - t.get i c * (t.get r j / t.get r c) := by
  have hr := row_lt_of_get_ne_zero h0
  rw [pivot_of_ne_zero h0]
  by_cases hj : j < t.columns.size
  · by_cases hi : i < t.height
    · rw [get_of_lt (by exact hi), column_mapIdx, if_pos hj]
      by_cases hc : j = c
      · rw [if_pos hc, hc, ExactScalar.div_self _ h0, ExactScalar.mul_one, ExactScalar.sub_self]
        exact ite_congr (propext eq_comm) (fun _ => rfl) fun _ => rfl
      · rw [if_neg hc, Column.get_pivoted (h.fits j) hr hi, ← get_of_lt hr, ← get_of_lt hi,
          ← get_of_lt hi]
    · rw [get_of_le (by simpa using hi), get_of_le (i := i) (by omega),
        get_of_le (i := i) (by omega), if_neg (by omega), ExactScalar.zero_mul,
        ExactScalar.sub_zero]
  · have hout (u : Columnar α) (hu : u.columns.size = t.columns.size) (k : Nat) : u.get k j = 0 :=
      get_of_size_le (by omega)
    rw [hout _ (by simp), hout t rfl, hout t rfl, ExactScalar.zero_div, ExactScalar.mul_zero,
      ExactScalar.sub_zero, ite_self]

end Exact

end Columnar

/-! ## Proper storage -/

def ProperColumnar (α : Type) : Type := { t : Columnar α // t.WellFormed }

namespace ProperColumnar

variable {α : Type} [Scalar α] [ExactScalar α]

instance : Tableau (ProperColumnar α) α where
  ofRows rows := ⟨Columnar.ofRows rows, Columnar.wellFormed_ofRows rows⟩
  nrRows t := t.val.height
  nrColumns t := t.val.columns.size
  get t := t.val.get
  set t r c x := ⟨t.val.set r c x, t.property.set r c x⟩
  pivot t r c := ⟨t.val.pivot r c, t.property.pivot r c⟩
  negateRow t r := ⟨t.val.negateRow r, t.property.negateRow r⟩
  removeRow t r := ⟨t.val.removeRow r, t.property.removeRow r⟩
  addColumn t := ⟨t.val.addColumn, t.property.addColumn⟩
  truncateColumns t w := ⟨t.val.truncateColumns w, t.property.truncateColumns w⟩

instance : LawfulTableau (ProperColumnar α) where
  nrRows_ofRows := ShapedTableau.nrRows_ofRows (τ := Columnar α)
  nrColumns_ofRows := ShapedTableau.nrColumns_ofRows (τ := Columnar α)
  get_ofRows := Columnar.get_ofRows
  get_row_outside _ _ _ h := Columnar.get_of_le h
  get_column_outside _ _ _ h := Columnar.get_of_size_le h
  nrRows_set t := ShapedTableau.nrRows_set t.val
  nrColumns_set t := ShapedTableau.nrColumns_set t.val
  get_set t := Columnar.get_set t.property
  nrRows_pivot t := ShapedTableau.nrRows_pivot t.val
  nrColumns_pivot t := ShapedTableau.nrColumns_pivot t.val
  get_pivot t _ _ := Columnar.get_pivot t.property
  nrRows_negateRow t := ShapedTableau.nrRows_negateRow t.val
  nrColumns_negateRow t := ShapedTableau.nrColumns_negateRow t.val
  get_negateRow t := Columnar.get_negateRow t.property
  nrRows_removeRow t := ShapedTableau.nrRows_removeRow t.val
  nrColumns_removeRow t := ShapedTableau.nrColumns_removeRow t.val
  get_removeRow t := t.val.get_removeRow
  nrRows_addColumn t := ShapedTableau.nrRows_addColumn t.val
  nrColumns_addColumn t := ShapedTableau.nrColumns_addColumn t.val
  get_addColumn t := t.val.get_addColumn
  nrRows_truncateColumns t := ShapedTableau.nrRows_truncateColumns t.val
  nrColumns_truncateColumns t := ShapedTableau.nrColumns_truncateColumns t.val
  get_truncateColumns t := t.val.get_truncateColumns

end ProperColumnar

end LinProg
