import LinProg.Proofs.Tableau.Columnar
import LinProg.Proofs.Tableau.Dense

/-!
# What can be read of a storage

A `Grid` is a matrix as it can be read: its extent and its values, with no say on how they are kept.
A map of storages that commutes with all operations is a homomorphism (`Tableau.IsHom`).  Reading a
storage is one if the storage is lawful and leaves operations that make no sense without effect
(`TotalTableau`).  Dense and columnar storage both are of this kind.
-/

namespace LinProg

@[ext]
structure Grid (α : Type) where
  nrRows : Nat
  nrColumns : Nat
  get : (row column : Nat) → α

/-- The operations as `LawfulTableau` describes them. -/
instance {α : Type} [Scalar α] : Tableau (Grid α) α where
  ofRows rows :=
    { nrRows := rows.length
      nrColumns := (rows.head?.getD []).length
      get := fun i j => if j < (rows.head?.getD []).length then (rows.getD i []).getD j 0 else 0 }
  nrRows := Grid.nrRows
  nrColumns := Grid.nrColumns
  get := Grid.get
  set t r c x :=
    { t with
      get := fun i j => if i = r ∧ j = c ∧ i < t.nrRows ∧ j < t.nrColumns then x else t.get i j }
  pivot t r c :=
    if Scalar.isZero (t.get r c) then t
    else
      { t with
        get := fun i j =>
          if i = r then t.get r j / t.get r c
          else t.get i j - t.get i c * (t.get r j / t.get r c) }
  negateRow t r := { t with get := fun i j => if i = r then -t.get i j else t.get i j }
  removeRow t r :=
    { t with
      nrRows := if r < t.nrRows then t.nrRows - 1 else t.nrRows
      get := fun i j => if i < r then t.get i j else t.get (i + 1) j }
  addColumn t := { t with nrColumns := t.nrColumns + 1 }
  truncateColumns t w :=
    { t with
      nrColumns := min w t.nrColumns
      get := fun i j => if j < w then t.get i j else 0 }

/-! ## Homomorphisms -/

namespace Tableau

/-- A map of storages that commutes with all operations and changes nothing that can be read. -/
structure IsHom {τ σ α : Type} [Tableau τ α] [Tableau σ α] (f : τ → σ) : Prop where
  map_ofRows (rows : List (List α)) : f (ofRows rows) = ofRows rows
  nrRows_map (t : τ) : nrRows (f t) = nrRows t
  nrColumns_map (t : τ) : nrColumns (f t) = nrColumns t
  get_map (t : τ) (row column : Nat) : get (f t) row column = get t row column
  map_set (t : τ) (row column : Nat) (value : α) :
    f (set t row column value) = set (f t) row column value
  map_pivot (t : τ) (row column : Nat) : f (pivot t row column) = pivot (f t) row column
  map_negateRow (t : τ) (row : Nat) : f (negateRow t row) = negateRow (f t) row
  map_removeRow (t : τ) (row : Nat) : f (removeRow t row) = removeRow (f t) row
  map_addColumn (t : τ) : f (addColumn t) = addColumn (f t)
  map_truncateColumns (t : τ) (width : Nat) :
    f (truncateColumns t width) = truncateColumns (f t) width

def grid {τ α : Type} [Tableau τ α] (t : τ) : Grid α := ⟨nrRows t, nrColumns t, get t⟩

theorem toRows_congr {τ σ α : Type} [Tableau τ α] [Tableau σ α] {t : τ} {u : σ}
    (hrows : nrRows t = nrRows u) (hcolumns : nrColumns t = nrColumns u)
    (hget : ∀ i j, get t i j = get u i j) : toRows t = toRows u := by
  rw [toRows, hrows, hcolumns, funext₂ hget, toRows]

end Tableau

/-- A lawful storage that ignores what makes no sense: a pivot on zero, the removal of a row that
isn't there. -/
class TotalTableau (τ : Type) {α : Type} [Tableau τ α] [Scalar α] : Prop
    extends LawfulTableau τ where
  pivot_of_zero (t : τ) (r c : Nat) : Tableau.get t r c = 0 → Tableau.pivot t r c = t
  removeRow_of_le (t : τ) (r : Nat) : Tableau.nrRows t ≤ r → Tableau.removeRow t r = t

section Exact

variable {α : Type} [Scalar α] [ExactScalar α]

instance : TotalTableau (Dense α) where
  pivot_of_zero _ _ _ h := if_pos ((ExactScalar.isZero_iff _).2 h)
  removeRow_of_le t r h := by
    have hr : ¬r < t.rows.size := Nat.not_lt.2 h
    show t.removeRow r = t
    rw [Dense.removeRow, Array.eraseIdxIfInBounds, dif_neg hr]

instance : TotalTableau (ProperColumnar α) where
  pivot_of_zero _ _ _ h := Subtype.ext (Columnar.pivot_of_zero h)
  removeRow_of_le _ _ h := Subtype.ext (if_neg (Nat.not_lt.2 h))

namespace Tableau

/-- Proper columns are columnar storage with a proof that no operation looks at. -/
theorem isHom_proper : IsHom fun t : ProperColumnar α => t.val :=
  ⟨fun _ => rfl, fun _ => rfl, fun _ => rfl, fun _ _ _ => rfl, fun _ _ _ _ => rfl,
    fun _ _ _ => rfl, fun _ _ => rfl, fun _ _ => rfl, fun _ => rfl, fun _ _ => rfl⟩

variable {τ : Type} [Tableau τ α] [TotalTableau τ]

theorem isHom_grid : IsHom (grid : τ → Grid α) where
  map_ofRows rows :=
    Grid.ext (ShapedTableau.nrRows_ofRows rows) (ShapedTableau.nrColumns_ofRows rows)
      (funext₂ (LawfulTableau.get_ofRows rows))
  nrRows_map _ := rfl
  nrColumns_map _ := rfl
  get_map _ _ _ := rfl
  map_set t r c x :=
    Grid.ext (ShapedTableau.nrRows_set t r c x) (ShapedTableau.nrColumns_set t r c x)
      (funext₂ (LawfulTableau.get_set t r c x))
  map_pivot t r c := by
    by_cases h : get t r c = 0
    · rw [TotalTableau.pivot_of_zero t r c h]
      exact (if_pos ((ExactScalar.isZero_iff _).2 h)).symm
    · refine .trans ?_ (if_neg (mt (ExactScalar.isZero_iff _).1 h)).symm
      exact Grid.ext (ShapedTableau.nrRows_pivot t r c) (ShapedTableau.nrColumns_pivot t r c)
        (funext₂ fun i j => LawfulTableau.get_pivot t r c i j h)
  map_negateRow t r :=
    Grid.ext (ShapedTableau.nrRows_negateRow t r) (ShapedTableau.nrColumns_negateRow t r)
      (funext₂ (LawfulTableau.get_negateRow t r))
  map_removeRow t r := by
    refine Grid.ext ?_ (ShapedTableau.nrColumns_removeRow t r)
      (funext₂ (LawfulTableau.get_removeRow t r))
    by_cases h : r < nrRows t
    · exact (ShapedTableau.nrRows_removeRow t r h).trans (if_pos h).symm
    · exact (congrArg nrRows (TotalTableau.removeRow_of_le t r (Nat.not_lt.1 h))).trans
        (if_neg h).symm
  map_addColumn t :=
    Grid.ext (ShapedTableau.nrRows_addColumn t) (ShapedTableau.nrColumns_addColumn t)
      (funext₂ (LawfulTableau.get_addColumn t))
  map_truncateColumns t w :=
    Grid.ext (ShapedTableau.nrRows_truncateColumns t w)
      (ShapedTableau.nrColumns_truncateColumns t w)
      (funext₂ (LawfulTableau.get_truncateColumns t w))

end Tableau

end Exact

/-! ## Sequences of operations -/

namespace Tableau

/-- An operation that changes a storage. -/
inductive Operation (α : Type) where
  | set (row column : Nat) (value : α)
  | pivot (row column : Nat)
  | negateRow (row : Nat)
  | removeRow (row : Nat)
  | addColumn
  | truncateColumns (width : Nat)

variable {τ σ α : Type} [Tableau τ α] [Tableau σ α]

def Operation.apply (t : τ) : Operation α → τ
  | set row column value => Tableau.set t row column value
  | pivot row column => Tableau.pivot t row column
  | negateRow row => Tableau.negateRow t row
  | removeRow row => Tableau.removeRow t row
  | addColumn => Tableau.addColumn t
  | truncateColumns width => Tableau.truncateColumns t width

/-- A storage after operations, the first one in the list made first. -/
def perform (t : τ) (operations : List (Operation α)) : τ := operations.foldl Operation.apply t

theorem IsHom.map_apply {f : τ → σ} (hf : IsHom f) (t : τ) (operation : Operation α) :
    f (operation.apply t) = operation.apply (f t) := by
  cases operation with
  | set row column value => exact hf.map_set t row column value
  | pivot row column => exact hf.map_pivot t row column
  | negateRow row => exact hf.map_negateRow t row
  | removeRow row => exact hf.map_removeRow t row
  | addColumn => exact hf.map_addColumn t
  | truncateColumns width => exact hf.map_truncateColumns t width

theorem IsHom.map_perform {f : τ → σ} (hf : IsHom f) (t : τ) (operations : List (Operation α)) :
    f (perform t operations) = perform (f t) operations :=
  (List.foldl_hom f fun t operation => (hf.map_apply t operation).symm).symm

end Tableau

end LinProg
