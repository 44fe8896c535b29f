import LinProg.Number.Instances
import Mathlib.Algebra.Order.Field.Rat
import Mathlib.Algebra.Field.Rat

/-!
# Scalars that compute exactly

`ExactScalar` collects the laws that storages of numbers rely on.  Rationals keep them; doubles
don't.  On rationals every test of `Scalar` says what its name says.
-/

namespace LinProg

/-- Arithmetic without rounding, as far as pivots need it. -/
class ExactScalar (α : Type) [Scalar α] : Prop where
  isZero_iff (x : α) : Scalar.isZero x = true ↔ x = 0
  isOne_iff (x : α) : Scalar.isOne x = true ↔ x = 1
  settle_eq (x : α) : Scalar.settle x = x
  neg_zero : -(0 : α) = 0
  sub_zero (x : α) : x - 0 = x
  sub_self (x : α) : x - x = 0
  zero_mul (x : α) : 0 * x = 0
  mul_zero (x : α) : x * 0 = 0
  mul_one (x : α) : x * 1 = x
  zero_div (x : α) : 0 / x = 0
  div_one (x : α) : x / 1 = x
  div_self (x : α) : x ≠ 0 → x / x = 1

attribute [simp] ExactScalar.isZero_iff ExactScalar.isOne_iff ExactScalar.settle_eq

namespace Scalar

@[simp] theorem isZero_rat (q : Rat) : Scalar.isZero q = decide (q = 0) := rfl

@[simp] theorem isOne_rat (q : Rat) : Scalar.isOne q = decide (q = 1) := rfl

@[simp] theorem isPositive_rat (q : Rat) : isPositive q = decide (0 < q) := rfl

@[simp] theorem isNegative_rat (q : Rat) : isNegative q = decide (q < 0) := rfl

@[simp] theorem less_rat (p q : Rat) : Scalar.less p q = decide (p < q) := rfl

@[simp] theorem same_rat (p q : Rat) : Scalar.same p q = decide (p = q) := rfl

theorem compare?_gt_rat {p q : Rat} : (compare? p q).getD .eq = .gt ↔ q < p := by
  unfold compare?
  rcases lt_trichotomy p q with h | h | h
  · simp [h, h.le]
  · simp [h]
  · simp [h, not_lt.2 h.le]

end Scalar

instance : ExactScalar Rat where
  isZero_iff q := by simp
  isOne_iff q := by simp
  settle_eq q := rfl
  neg_zero := neg_zero
  sub_zero := sub_zero
  sub_self := sub_self
  zero_mul := Rat.zero_mul
  mul_zero := Rat.mul_zero
  mul_one := mul_one
  zero_div := zero_div
  div_one := div_one
  div_self _ h := div_self h

end LinProg
