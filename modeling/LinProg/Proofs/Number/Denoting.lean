import LinProg.Program.Linear
import LinProg.Proofs.Number.Exact
import LinProg.Proofs.Program.Feasible
import LinProg.Solution
import Mathlib.Data.Rat.Floor

/-!
# Numbers that denote rationals

A search compares numbers, rounds them to integers and asks whether they are integers.  `Denoting`
says that all of this is done exactly on the rationals that the numbers stand for; arithmetic may
still round.  Programs and solutions are read through it.
-/

namespace LinProg

/-- Numbers that stand for rationals, as far as a search looks at them. -/
class Denoting (α : Type) [Integral α] where
  /-- What is no number stands for zero, but nothing relies on that. -/
  toRat : α → Rat
  IsNumber : α → Prop
  isNumber_zero : IsNumber 0
  isNumber_one : IsNumber 1
  toRat_zero : toRat 0 = 0
  toRat_one : toRat 1 = 1
  toRat_of_isZero {a : α} : Scalar.isZero a = true → toRat a = 0
  toRat_of_isOne {a : α} : Scalar.isOne a = true → toRat a = 1
  toRat_nonneg {a : α} : Scalar.isNegative a = false → 0 ≤ toRat a
  less_iff {a b : α} : IsNumber a → IsNumber b → (Scalar.less a b = true ↔ toRat a < toRat b)
  isIntegral_iff {a : α} :
    IsNumber a → (Integral.isIntegral a = true ↔ ∃ k : Int, toRat a = k)
  toRat_floor {a : α} : IsNumber a → toRat (Integral.floor a) = ⌊toRat a⌋
  toRat_ceil {a : α} : IsNumber a → toRat (Integral.ceil a) = ⌈toRat a⌉

namespace Denoting

attribute [simp] toRat_zero toRat_one isNumber_zero isNumber_one

end Denoting

open Denoting

/-- Rationals stand for themselves. -/
instance : Denoting Rat where
  toRat q := q
  IsNumber _ := True
  isNumber_zero := trivial
  isNumber_one := trivial
  toRat_zero := rfl
  toRat_one := rfl
  toRat_of_isZero h := by simpa using h
  toRat_of_isOne h := by simpa using h
  toRat_nonneg h := by simpa using h
  less_iff _ _ := by simp
  isIntegral_iff {a} _ := by
    show (a.den == 1) = true ↔ _
    rw [beq_iff_eq]
    constructor
    · intro h
      exact ⟨a.num, (Rat.den_eq_one_iff a).1 h |>.symm⟩
    · rintro ⟨k, rfl⟩
      rfl
  toRat_floor {a} _ := by
    show ((a.floor : Int) : Rat) = _
    rw [Rat.floor_def, Rat.floor_def']
  toRat_ceil {a} _ := by
    show ((a.ceil : Int) : Rat) = _
    rw [Rat.ceil_eq_neg_floor_neg, Rat.floor_def, Rat.neg_num, Rat.neg_den, Rat.ceil_def']

variable {α : Type} [Integral α] [Denoting α] {n : Nat}

theorem Objective.improves_iff {objective : Objective} {a b : α} (ha : IsNumber a)
    (hb : IsNumber b) :
    objective.improves a b = true ↔ ¬objective.NoBetter (toRat a) (toRat b) := by
  cases objective
  · rw [noBetter_maximize, not_le]
    exact less_iff hb ha
  · rw [noBetter_minimize, not_le]
    exact less_iff ha hb

def LinearProgram.read (lp : LinearProgram α n) : LinearProgram Rat n := lp.map toRat

/-- The point of a solution; values beyond its list are zero. -/
def Solution.point (solution : Solution α) (v : Fin n) : Rat := toRat (solution.x.getD v 0)

end LinProg
