import LinProg.Tableau.Columnar
import LinProg.Tableau.Dense

/-!
# Shape of storages

How many rows and columns a storage has after each operation.  No law of arithmetic is needed for
that, so dense and columnar storage have their shape with doubles too.
-/

namespace LinProg

/-- Rows and columns after each operation, whatever the numbers are. -/
class ShapedTableau (τ : Type) {α : Type} [Tableau τ α] : Prop where
  nrRows_ofRows (rows : List (List α)) : Tableau.nrRows (Tableau.ofRows rows : τ) = rows.length
  nrColumns_ofRows (rows : List (List α)) :
    Tableau.nrColumns (Tableau.ofRows rows : τ) = (rows.head?.getD []).length
  nrRows_set (t : τ) (r c : Nat) (x : α) : Tableau.nrRows (Tableau.set t r c x) = Tableau.nrRows t
  nrColumns_set (t : τ) (r c : Nat) (x : α) :
    Tableau.nrColumns (Tableau.set t r c x) = Tableau.nrColumns t
  nrRows_pivot (t : τ) (r c : Nat) : Tableau.nrRows (Tableau.pivot t r c) = Tableau.nrRows t
  nrColumns_pivot (t : τ) (r c : Nat) :
    Tableau.nrColumns (Tableau.pivot t r c) = Tableau.nrColumns t
  nrRows_negateRow (t : τ) (r : Nat) : Tableau.nrRows (Tableau.negateRow t r) = Tableau.nrRows t
  nrColumns_negateRow (t : τ) (r : Nat) :
    Tableau.nrColumns (Tableau.negateRow t r) = Tableau.nrColumns t
  nrRows_removeRow (t : τ) (r : Nat) (h : r < Tableau.nrRows t) :
    Tableau.nrRows (Tableau.removeRow t r) = Tableau.nrRows t - 1
  nrColumns_removeRow (t : τ) (r : Nat) :
    Tableau.nrColumns (Tableau.removeRow t r) = Tableau.nrColumns t
  nrRows_addColumn (t : τ) : Tableau.nrRows (Tableau.addColumn t) = Tableau.nrRows t
  nrColumns_addColumn (t : τ) : Tableau.nrColumns (Tableau.addColumn t) = Tableau.nrColumns t + 1
  nrRows_truncateColumns (t : τ) (w : Nat) :
    Tableau.nrRows (Tableau.truncateColumns t w) = Tableau.nrRows t
  nrColumns_truncateColumns (t : τ) (w : Nat) :
    Tableau.nrColumns (Tableau.truncateColumns t w) = min w (Tableau.nrColumns t)

attribute [simp] ShapedTableau.nrRows_set ShapedTableau.nrColumns_set ShapedTableau.nrRows_pivot
  ShapedTableau.nrColumns_pivot ShapedTableau.nrRows_negateRow ShapedTableau.nrColumns_negateRow
  ShapedTableau.nrColumns_removeRow ShapedTableau.nrRows_addColumn
  ShapedTableau.nrColumns_addColumn ShapedTableau.nrRows_truncateColumns
  ShapedTableau.nrColumns_truncateColumns

variable {α : Type} [Scalar α]

instance : ShapedTableau (Dense α) where
  nrRows_ofRows rows := by simp [Tableau.nrRows, Tableau.ofRows, Dense.ofRows]
  nrColumns_ofRows rows := rfl
  nrRows_set t r c x := by
    show (t.set r c x).rows.size = t.rows.size
    unfold Dense.set
    split <;> simp
  nrColumns_set t r c x := by
    show (t.set r c x).width = t.width
    unfold Dense.set
    split <;> rfl
  nrRows_pivot t r c := by
    show (t.pivot r c).rows.size = t.rows.size
    unfold Dense.pivot
    dsimp only
    split <;> simp
  nrColumns_pivot t r c := by
    show (t.pivot r c).width = t.width
    unfold Dense.pivot
    dsimp only
    split <;> rfl
  nrRows_negateRow t r := Array.size_modify ..
  nrColumns_negateRow t r := rfl
  nrRows_removeRow t r h := by
    show (t.rows.eraseIdxIfInBounds r).size = t.rows.size - 1
    have hr : r < t.rows.size := h
    simp [Array.eraseIdxIfInBounds, hr]
  nrColumns_removeRow t r := rfl
  nrRows_addColumn t := Array.size_map
  nrColumns_addColumn t := rfl
  nrRows_truncateColumns t w := rfl
  nrColumns_truncateColumns t w := rfl

instance : ShapedTableau (Columnar α) where
  nrRows_ofRows rows := rfl
  nrColumns_ofRows rows := Array.size_ofFn
  nrRows_set t r c x := by
    show (t.set r c x).height = t.height
    unfold Columnar.set
    split <;> rfl
  nrColumns_set t r c x := by
    show (t.set r c x).columns.size = t.columns.size
    unfold Columnar.set
    split
    · exact Array.size_modify ..
    · rfl
  nrRows_pivot t r c := by
    show (t.pivot r c).height = t.height
    unfold Columnar.pivot
    dsimp only
    split <;> rfl
  nrColumns_pivot t r c := by
    show (t.pivot r c).columns.size = t.columns.size
    unfold Columnar.pivot
    dsimp only
    split
    · rfl
    · exact Array.size_mapIdx
  nrRows_negateRow t r := rfl
  nrColumns_negateRow t r := Array.size_map
  nrRows_removeRow t r h := by
    show (t.removeRow r).height = t.height - 1
    unfold Columnar.removeRow
    rw [if_pos (by exact h)]
  nrColumns_removeRow t r := by
    show (t.removeRow r).columns.size = t.columns.size
    unfold Columnar.removeRow
    split
    · exact Array.size_map
    · rfl
  nrRows_addColumn t := rfl
  nrColumns_addColumn t := Array.size_push _
  nrRows_truncateColumns t w := rfl
  nrColumns_truncateColumns t w := by
    show (t.columns.take w).size = min w t.columns.size
    simp [Array.take_eq_extract]

end LinProg
