import LinProg.Proofs.Tableau.Grid
import Mathlib.Tactic.LinearCombination
import Mathlib.Tactic.Ring

/-!
# The laws of pivots

A pivot is a sequence of row operations, whatever the storage leaves out: rows and columns that it
would not change, values that it knows.  Over an exact field it has the effect of the row operations
(`PivotLaws`): the pivot column becomes a unit vector, the equations keep their solutions, and a
pivot back on a column that was a unit vector undoes it.
-/

namespace LinProg

/-- Arithmetic with the laws of a field, where a quotient by zero may be anything. -/
class ExactField (α : Type) [Scalar α] : Prop extends ExactScalar α where
  add_assoc (x y z : α) : x + y + z = x + (y + z)
  add_comm (x y : α) : x + y = y + x
  zero_add (x : α) : 0 + x = x
  neg_add_cancel (x : α) : -x + x = 0
  sub_eq_add_neg (x y : α) : x - y = x + -y
  mul_assoc (x y z : α) : x * y * z = x * (y * z)
  mul_comm (x y : α) : x * y = y * x
  mul_add (x y z : α) : x * (y + z) = x * y + x * z
  div_mul_cancel (x y : α) : y ≠ 0 → x / y * y = x

instance : ExactField Rat where
  add_assoc := add_assoc
  add_comm := add_comm
  zero_add := zero_add
  neg_add_cancel := neg_add_cancel
  sub_eq_add_neg := sub_eq_add_neg
  mul_assoc := mul_assoc
  mul_comm := mul_comm
  mul_add := mul_add
  div_mul_cancel x _ h := div_mul_cancel₀ x h

namespace ExactField

variable {α : Type} [Scalar α] [ExactField α]

@[reducible] def toCommRing : CommRing α where
  add_assoc := add_assoc
  add_comm := add_comm
  zero_add := zero_add
  add_zero x := by rw [add_comm, zero_add]
  neg_add_cancel := neg_add_cancel
  sub_eq_add_neg := sub_eq_add_neg
  mul_assoc := mul_assoc
  mul_comm := mul_comm
  left_distrib := mul_add
  right_distrib x y z := by rw [mul_comm, mul_add, mul_comm z, mul_comm z]
  zero_mul := ExactScalar.zero_mul
  mul_zero := ExactScalar.mul_zero
  one_mul x := by rw [mul_comm, ExactScalar.mul_one]
  mul_one := ExactScalar.mul_one
  nsmul := nsmulRec
  zsmul := zsmulRec

theorem mul_right_cancel {x y z : α} (hz : z ≠ 0) (h : x * z = y * z) : x = y := by
  let _ := toCommRing (α := α)
  have hinv := div_mul_cancel (1 : α) z hz
  linear_combination (1 / z) * h - (x - y) * hinv

theorem one_ne_zero {x : α} (hx : x ≠ 0) : (1 : α) ≠ 0 := by
  intro h
  rw [← ExactScalar.mul_one x, h, ExactScalar.mul_zero] at hx
  exact hx rfl

end ExactField

namespace Tableau

variable {τ α : Type} [Tableau τ α] [Scalar α]

def HasUnitColumn (t : τ) (column row : Nat) : Prop :=
  ∀ i < nrRows t, get t i column = if i = row then 1 else 0

/-- Values of some columns add up to the right hand side of a row. -/
def Balances (t : τ) (columns : List Nat) (rhs : Nat) (x : Nat → α) (row : Nat) : Prop :=
  (columns.map fun j => get t row j * x j).sum = get t row rhs

/-- Values of some columns satisfy all constraints.  Which columns take part, and which one is the
right hand side, is not the storage's business. -/
def Solves (t : τ) (columns : List Nat) (rhs : Nat) (x : Nat → α) : Prop :=
  ∀ row ∈ constraintRows t, Balances t columns rhs x row

/-- What a pivot does to all that can be read of a storage. -/
structure PivotLaws (t : τ) (row column : Nat) : Prop where
  nrRows : nrRows (pivot t row column) = nrRows t
  nrColumns : nrColumns (pivot t row column) = nrColumns t
  of_zero : get t row column = 0 → pivot t row column = t
  unit : get t row column ≠ 0 → HasUnitColumn (pivot t row column) column row
  untouched (j : Nat) : get t row j = 0 → ∀ i, get (pivot t row column) i j = get t i j
  solves (columns : List Nat) (rhs : Nat) (x : Nat → α) : 0 < row →
    (Solves (pivot t row column) columns rhs x ↔ Solves t columns rhs x)
  /-- A second time it changes no value. -/
  again : grid (pivot (pivot t row column) row column) = grid (pivot t row column)
  /-- A column that was the unit vector of the row leads back. -/
  back (d : Nat) : HasUnitColumn t d row → grid (pivot (pivot t row column) row d) = grid t

section Total

variable [TotalTableau τ] {t : τ} {r c : Nat}

theorem row_lt_of_ne_zero (h : get t r c ≠ 0) : r < nrRows t := by
  by_contra hr
  exact h (LawfulTableau.get_row_outside t r c (Nat.le_of_not_lt hr))

theorem grid_pivot (h : ∀ i j, get (pivot t r c) i j = get t i j) : grid (pivot t r c) = grid t :=
  Grid.ext (ShapedTableau.nrRows_pivot t r c) (ShapedTableau.nrColumns_pivot t r c) (funext₂ h)

theorem get_pivot_of_ne (h : get t r c ≠ 0) {i : Nat} (hi : i ≠ r) (j : Nat) :
    get (pivot t r c) i j = get t i j - get t i c * get (pivot t r c) r j := by
  rw [LawfulTableau.get_pivot t r c i j h, LawfulTableau.get_pivot t r c r j h, if_neg hi,
    if_pos rfl]

variable [ExactField α]

theorem get_pivot_mul (h : get t r c ≠ 0) (j : Nat) :
    get (pivot t r c) r j * get t r c = get t r j := by
  rw [LawfulTableau.get_pivot t r c r j h, if_pos rfl, ExactField.div_mul_cancel _ _ h]

theorem hasUnitColumn_pivot (h : get t r c ≠ 0) : HasUnitColumn (pivot t r c) c r := by
  intro i _
  rw [LawfulTableau.get_pivot t r c i c h, ExactScalar.div_self _ h]
  split
  · rfl
  · rw [ExactScalar.mul_one, ExactScalar.sub_self]

theorem get_pivot_untouched {j : Nat} (hj : get t r j = 0) (i : Nat) :
    get (pivot t r c) i j = get t i j := by
  by_cases h : get t r c = 0
  · rw [TotalTableau.pivot_of_zero t r c h]
  · rw [LawfulTableau.get_pivot t r c i j h, hj, ExactScalar.zero_div, ExactScalar.mul_zero,
      ExactScalar.sub_zero]
    split
    next hi => rw [hi, hj]
    next => rfl

/-! ## Solutions -/

theorem sum_pivot_mul (h : get t r c ≠ 0) (columns : List Nat) (x : Nat → α) :
    (columns.map fun j => get (pivot t r c) r j * x j).sum * get t r c =
      (columns.map fun j => get t r j * x j).sum := by
  let _ := ExactField.toCommRing (α := α)
  induction columns with
  | nil => exact ExactScalar.zero_mul _
  | cons j rest ih =>
    rw [List.map_cons, List.sum_cons, List.map_cons, List.sum_cons]
    linear_combination x j * get_pivot_mul h j + ih

theorem sum_pivot_of_ne (h : get t r c ≠ 0) {i : Nat} (hi : i ≠ r) (columns : List Nat)
    (x : Nat → α) :
    (columns.map fun j => get (pivot t r c) i j * x j).sum =
      (columns.map fun j => get t i j * x j).sum -
        get t i c * (columns.map fun j => get (pivot t r c) r j * x j).sum := by
  let _ := ExactField.toCommRing (α := α)
  induction columns with
  | nil =>
    show (0 : α) = 0 - get t i c * 0
    ring
  | cons j rest ih =>
    simp only [List.map_cons, List.sum_cons]
    linear_combination x j * get_pivot_of_ne h hi j + ih

variable {columns : List Nat} {rhs : Nat} {x : Nat → α}

theorem balances_pivot_self (h : get t r c ≠ 0) :
    Balances (pivot t r c) columns rhs x r ↔ Balances t columns rhs x r := by
  rw [Balances, Balances, ← sum_pivot_mul h, ← get_pivot_mul h rhs]
  exact ⟨congrArg (· * get t r c), ExactField.mul_right_cancel h⟩

theorem balances_pivot_of_ne (h : get t r c ≠ 0) {i : Nat} (hi : i ≠ r)
    (hr : Balances (pivot t r c) columns rhs x r) :
    Balances (pivot t r c) columns rhs x i ↔ Balances t columns rhs x i := by
  let _ := ExactField.toCommRing (α := α)
  rw [Balances] at hr
  rw [Balances, Balances, sum_pivot_of_ne h hi, get_pivot_of_ne h hi, hr]
  exact sub_left_inj

/-- The pivot row is scaled, and what the other rows lose are multiples of it. -/
theorem solves_pivot (hr : 0 < r) :
    Solves (pivot t r c) columns rhs x ↔ Solves t columns rhs x := by
  by_cases h : get t r c = 0
  · rw [TotalTableau.pivot_of_zero t r c h]
  · have hmem : r ∈ constraintRows t := by
      have := row_lt_of_ne_zero h
      rw [constraintRows, List.mem_range'_1]
      omega
    have hrows : constraintRows (pivot t r c) = constraintRows t := by
      rw [constraintRows, ShapedTableau.nrRows_pivot, constraintRows]
    have hrow (i : Nat) (hself : Balances (pivot t r c) columns rhs x r) :
        Balances (pivot t r c) columns rhs x i ↔ Balances t columns rhs x i := by
      by_cases hi : i = r
      · rw [hi]
        exact balances_pivot_self h
      · exact balances_pivot_of_ne h hi hself
    rw [Solves, hrows]
    constructor
    · intro hsolves i hi
      exact (hrow i (hsolves r hmem)).1 (hsolves i hi)
    · intro hsolves i hi
      exact (hrow i ((balances_pivot_self h).2 (hsolves r hmem))).2 (hsolves i hi)

/-! ## Several pivots -/

/-- A column that is a unit vector has nothing left to do. -/
theorem grid_pivot_of_unit (hunit : HasUnitColumn t c r) : grid (pivot t r c) = grid t := by
  by_cases h : get t r c = 0
  · rw [TotalTableau.pivot_of_zero t r c h]
  · refine grid_pivot fun i j => ?_
    have hself : get t r c = 1 := by
      rw [hunit r (row_lt_of_ne_zero h), if_pos rfl]
    have hother (hi : i ≠ r) : get t i c = 0 := by
      by_cases hlt : i < nrRows t
      · rw [hunit i hlt, if_neg hi]
      · exact LawfulTableau.get_row_outside t i c (Nat.le_of_not_lt hlt)
    rw [LawfulTableau.get_pivot t r c i j h, hself, ExactScalar.div_one]
    split
    next hi => rw [hi]
    next hi => rw [hother hi, ExactScalar.zero_mul, ExactScalar.sub_zero]

theorem grid_pivot_back {d : Nat} (hunit : HasUnitColumn t d r) :
    grid (pivot (pivot t r c) r d) = grid t := by
  by_cases h : get t r c = 0
  · rw [TotalTableau.pivot_of_zero t r c h]
    exact grid_pivot_of_unit hunit
  let _ := ExactField.toCommRing (α := α)
  have hd : get (pivot t r c) r d * get t r c = 1 := by
    rw [get_pivot_mul h, hunit r (row_lt_of_ne_zero h), if_pos rfl]
  have hd0 : get (pivot t r c) r d ≠ 0 := by
    intro h0
    rw [h0, ExactScalar.zero_mul] at hd
    exact ExactField.one_ne_zero h hd.symm
  have hrow (j : Nat) : get (pivot (pivot t r c) r d) r j = get t r j := by
    linear_combination get t r c * get_pivot_mul hd0 j + get_pivot_mul h j -
      get (pivot (pivot t r c) r d) r j * hd
  refine Grid.ext ?_ ?_ (funext₂ fun i j => ?_)
  · exact (ShapedTableau.nrRows_pivot ..).trans (ShapedTableau.nrRows_pivot ..)
  · exact (ShapedTableau.nrColumns_pivot ..).trans (ShapedTableau.nrColumns_pivot ..)
  show get (pivot (pivot t r c) r d) i j = get t i j
  by_cases hi : i = r
  · rw [hi, hrow]
  have hid : get t i d = 0 := by
    by_cases hlt : i < nrRows t
    · rw [hunit i hlt, if_neg hi]
    · exact LawfulTableau.get_row_outside t i d (Nat.le_of_not_lt hlt)
  rw [get_pivot_of_ne hd0 hi, hrow, get_pivot_of_ne h hi, get_pivot_of_ne h hi d, hid]
  linear_combination get t i c * get (pivot t r c) r d * (get_pivot_mul h j).symm +
    get t i c * get (pivot t r c) r j * hd

theorem pivotLaws (t : τ) (r c : Nat) : PivotLaws t r c where
  nrRows := ShapedTableau.nrRows_pivot t r c
  nrColumns := ShapedTableau.nrColumns_pivot t r c
  of_zero := TotalTableau.pivot_of_zero t r c
  unit := hasUnitColumn_pivot
  untouched _ := get_pivot_untouched
  solves _ _ _ := solves_pivot
  again := by
    by_cases h : get t r c = 0
    · rw [TotalTableau.pivot_of_zero t r c h, TotalTableau.pivot_of_zero t r c h]
    · exact grid_pivot_of_unit (hasUnitColumn_pivot h)
  back _ := grid_pivot_back

end Total

/-- The laws hold of both storages, over any exact field. -/
theorem pivotLaws_of_exactField {α : Type} [Scalar α] [ExactField α] :
    (∀ t : Dense α, ∀ row column, PivotLaws t row column) ∧
      ∀ t : Columnar α, t.WellFormed → ∀ row column, PivotLaws t row column := by
  refine ⟨pivotLaws, fun t h row column => ?_⟩
  -- Proper columns differ from these by a proof that nothing reads.
  let proper : ProperColumnar α := ⟨t, h⟩
  have hproper := pivotLaws proper row column
  exact {
    nrRows := hproper.nrRows
    nrColumns := hproper.nrColumns
    of_zero := fun h0 => congrArg Subtype.val (hproper.of_zero h0)
    unit := hproper.unit
    untouched := hproper.untouched
    solves := hproper.solves
    again := hproper.again
    back := hproper.back }

/-- A pivot in a row that has a unit column, and the way back. -/
theorem sampleTableau_pivotLaws :
    let t : Columnar Rat := .ofRows [[3, 2, 0, 0], [1, 1, 0, 4], [2, 1, 1, 5]]
    get t 2 0 ≠ 0 ∧ (∀ i < 3, get t i 2 = if i = 2 then 1 else 0) ∧ PivotLaws t 2 0 ∧
      toRows (pivot t 2 0) =
        [[0, 1/2, -3/2, -15/2], [0, 1/2, -1/2, 3/2], [1, 1/2, 1/2, 5/2]] ∧
      toRows (pivot (pivot t 2 0) 2 2) = toRows t := by
  intro t
  exact ⟨by decide +kernel, by decide +kernel,
    pivotLaws_of_exactField.2 t (Columnar.wellFormed_ofRows _) 2 0, by decide +kernel,
    by decide +kernel⟩

end Tableau

end LinProg
