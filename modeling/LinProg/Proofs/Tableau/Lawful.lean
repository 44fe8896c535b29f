import LinProg.Proofs.Number.Exact
import LinProg.Proofs.Tableau.Shape

/-!
# Lawful storages

`LawfulTableau` says what a storage reads after each operation.  The simplex method relies on
nothing else.
-/

namespace LinProg

/-- What can be read after each operation; reading outside of the matrix gives zero. -/
class LawfulTableau (τ : Type) {α : Type} [Tableau τ α] [Scalar α] : Prop
    extends ShapedTableau τ where
  get_ofRows (rows : List (List α)) (i j : Nat) :
    Tableau.get (Tableau.ofRows rows : τ) i j =
      if j < (rows.head?.getD []).length then (rows.getD i []).getD j 0 else 0
  get_row_outside (t : τ) (i j : Nat) : Tableau.nrRows t ≤ i → Tableau.get t i j = 0
  get_column_outside (t : τ) (i j : Nat) : Tableau.nrColumns t ≤ j → Tableau.get t i j = 0
  get_set (t : τ) (r c : Nat) (x : α) (i j : Nat) :
    Tableau.get (Tableau.set t r c x) i j =
      if i = r ∧ j = c ∧ i < Tableau.nrRows t ∧ j < Tableau.nrColumns t then x
      else Tableau.get t i j
  get_pivot (t : τ) (r c i j : Nat) (h : Tableau.get t r c ≠ 0) :
    Tableau.get (Tableau.pivot t r c) i j =
      if i = r then Tableau.get t r j / Tableau.get t r c
      else Tableau.get t i j - Tableau.get t i c * (Tableau.get t r j / Tableau.get t r c)
  get_negateRow (t : τ) (r i j : Nat) :
    Tableau.get (Tableau.negateRow t r) i j =
      if i = r then -Tableau.get t i j else Tableau.get t i j
  get_removeRow (t : τ) (r i j : Nat) :
    Tableau.get (Tableau.removeRow t r) i j =
      if i < r then Tableau.get t i j else Tableau.get t (i + 1) j
  get_addColumn (t : τ) (i j : Nat) : Tableau.get (Tableau.addColumn t) i j = Tableau.get t i j
  get_truncateColumns (t : τ) (w i j : Nat) :
    Tableau.get (Tableau.truncateColumns t w) i j = if j < w then Tableau.get t i j else 0

attribute [simp] LawfulTableau.get_addColumn

namespace Tableau

variable {τ α : Type} [Tableau τ α]

@[simp] theorem mem_constraintRows {t : τ} {row : Nat} :
    row ∈ constraintRows t ↔ 0 < row ∧ row < nrRows t := by
  simp only [constraintRows, List.mem_range'_1]
  omega

theorem constraintRows_congr {t u : τ} (h : nrRows t = nrRows u) :
    constraintRows t = constraintRows u := by
  simp only [constraintRows, h]

section AddedColumn

variable [Scalar α] [LawfulTableau τ] (t : τ) (row : Nat) (x : α) (i : Nat)

/-- A value written into a column that was just added leaves the others alone. -/
theorem get_set_addColumn_of_lt {j : Nat} (hj : j < nrColumns t) :
    get (set (addColumn t) row (nrColumns t) x) i j = get t i j := by
  rw [LawfulTableau.get_set, if_neg fun h => hj.ne h.2.1, LawfulTableau.get_addColumn]

theorem get_set_addColumn_self (hrow : row < nrRows t) :
    get (set (addColumn t) row (nrColumns t) x) i (nrColumns t) = if i = row then x else 0 := by
  rw [LawfulTableau.get_set, LawfulTableau.get_addColumn,
    LawfulTableau.get_column_outside t i _ (Nat.le_refl _)]
  refine ite_congr (propext ⟨fun h => h.1, fun h => ⟨h, rfl, ?_, ?_⟩⟩) (fun _ => rfl) fun _ => rfl
  · rwa [h, ShapedTableau.nrRows_addColumn]
  · rw [ShapedTableau.nrColumns_addColumn]
    exact Nat.lt_succ_self _

end AddedColumn

end Tableau

end LinProg
