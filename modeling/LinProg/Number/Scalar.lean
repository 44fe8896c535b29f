/-!
# Numbers a solver computes with

`Scalar` collects the operations that tableaus and the simplex method use, `Integral` adds those
that branching on integers needs.  The classes carry no laws: binary floating point keeps none of
the field laws and exact rationals keep all of them, so a law is a hypothesis where it is used.
-/

namespace LinProg

/-- A number type for tableaus: arithmetic, tests, and the way to and from a double. -/
class Scalar (α : Type) extends Zero α, One α, Neg α, Add α, Sub α, Mul α, Div α where
  isZero : α → Bool
  isOne : α → Bool
  /-- Strictly smaller; false for values that can't be compared. -/
  less : α → α → Bool
  /-- Equal as numbers; false for values that can't be compared. -/
  same : α → α → Bool
  /-- The number that a finite input coefficient stands for. -/
  ofFloat : Float → α
  /-- The closest double. -/
  toFloat : α → Float
  /-- Replaces a value that carries no information by zero. -/
  settle : α → α
  text : α → String

namespace Scalar

variable {α : Type} [Scalar α]

def isPositive (x : α) : Bool := less 0 x

def isNegative (x : α) : Bool := less x 0

/-- The order of two numbers, if they have one. -/
def compare? (x y : α) : Option Ordering :=
  if less x y then some .lt
  else if less y x then some .gt
  else if same x y then some .eq
  else none

end Scalar

/-- Numbers among which integers can be told apart and approached from both sides. -/
class Integral (α : Type) extends Scalar α where
  floor : α → α
  ceil : α → α
  isIntegral : α → Bool

end LinProg
