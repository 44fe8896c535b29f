import LinProg.Number.Scalar

/-!
# Tableaus

The simplex method works on one matrix.  Row 0 holds the relative profit of every column and, under
the right hand side, the negated objective value; the other rows hold the constraints.  Columns are
the variables, the right hand side, and those added while solving.

`Tableau` is what the method asks of a storage.  Reading outside of the matrix gives zero, so that a
column that was just added reads as it did before.
-/

namespace LinProg

/-- Storage `τ` for a matrix of numbers `α`. -/
class Tableau (τ : Type) (α : outParam Type) where
  /-- A matrix with the given rows, as wide as the first one. -/
  ofRows : List (List α) → τ
  nrRows : τ → Nat
  nrColumns : τ → Nat
  get : τ → (row column : Nat) → α
  set : τ → (row column : Nat) → α → τ
  /-- Makes the column the unit vector of the row by row operations: the row is divided by the
  pivot and multiples of it are subtracted from the others.  A zero pivot does nothing. -/
  pivot : τ → (row column : Nat) → τ
  negateRow : τ → Nat → τ
  removeRow : τ → Nat → τ
  /-- Adds a column of zeros on the right. -/
  addColumn : τ → τ
  /-- Keeps the first columns only. -/
  truncateColumns : τ → Nat → τ

namespace Tableau

variable {τ α : Type} [Tableau τ α]

/-- The rows below the cost row. -/
def constraintRows (t : τ) : List Nat := List.range' 1 (nrRows t - 1)

/-- All values, row by row. -/
def toRows (t : τ) : List (List α) :=
  (List.range (nrRows t)).map fun row => (List.range (nrColumns t)).map (get t row)

variable [Scalar α]

def isZero (t : τ) (row column : Nat) : Bool := Scalar.isZero (get t row column)

def isPositive (t : τ) (row column : Nat) : Bool := Scalar.isPositive (get t row column)

def isNegative (t : τ) (row column : Nat) : Bool := Scalar.isNegative (get t row column)

/-- Whether one of the first `width` values of a row is positive. -/
def anyPositive (t : τ) (row width : Nat) : Bool := (List.range width).any (isPositive t row)

/-- Whether one of the first `width` values of a row is not zero. -/
def anyNonzero (t : τ) (row width : Nat) : Bool := (List.range width).any (!isZero t row ·)

/-- The order of two entries; entries that can't be compared count as equal. -/
def compare (t : τ) (a b : Nat × Nat) : Ordering :=
  (Scalar.compare? (get t a.1 a.2) (get t b.1 b.2)).getD .eq

end Tableau

end LinProg
