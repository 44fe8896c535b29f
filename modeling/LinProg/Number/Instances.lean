import LinProg.Number.Scalar
import LinProg.Number.Decimal
import LinProg.Number.Places

/-!
# Doubles and exact rationals as scalars

Doubles round after every operation.  Rationals compute exactly; a coefficient enters as the number
its decimal text denotes, so `0.1` is one tenth.
-/

namespace LinProg

/-! ## Doubles -/

instance : Scalar Float where
  isZero x := x == 0
  isOne x := x == 1
  less x y := x < y
  same x y := x == y
  ofFloat x := x
  toFloat x := x
  settle x := if x.isNaN then 0 else x
  text := Binary64.text

instance : Integral Float where
  floor := Binary64.floor
  ceil := Binary64.ceil
  isIntegral := Binary64.isIntegral

/-! ## Rationals -/

namespace Exact

/-- The number that the text of a double denotes; what is not finite counts as zero. -/
def ofFloat (x : Float) : Rat := Decimal.read (Binary64.chars x)

/-- The double nearest to a rational, ties to even. -/
def toFloat (q : Rat) : Float := Binary64.nearest (q.num < 0) q.num.natAbs q.den

def text (q : Rat) : String :=
  if q.den = 1 then toString q.num else toString q.num ++ "/" ++ toString q.den

end Exact

instance : Scalar Rat where
  zero := 0
  one := 1
  isZero q := q == 0
  isOne q := q == 1
  less p q := p < q
  same p q := p == q
  ofFloat := Exact.ofFloat
  toFloat := Exact.toFloat
  settle q := q
  text := Exact.text

instance : Integral Rat where
  floor q := (q.floor : Int)
  ceil q := (q.ceil : Int)
  isIntegral q := q.den == 1

end LinProg
