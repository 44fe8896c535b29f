import LinProg.Number.Binary64

/-!
# Rounding to decimal places

Results are reported to a fixed number of decimals, computed in doubles.
-/

namespace LinProg.Binary64

/-- Square and multiply over the bits of `n`, from the lowest. -/
def powerLoop : Nat → Nat → Float → Float → Float
  | 0, _, r, _ => r
  | fuel + 1, n, r, x =>
    let r := if n % 2 = 1 then r * x else r
    if n / 2 = 0 then r else powerLoop fuel (n / 2) r (x * x)

/-- Exponents are limited to 31 bits. -/
def largestPower : Nat := twoPow 31 - 1

/-- `10 ^ n` with one rounding per multiplication. -/
def powerOfTen (n : Nat) : Float := powerLoop 31 (min n largestPower) 1 10

/-- The multiple of `10 ^ -places` closest to a value, halves away from zero, never `-0`.  A value
too large to be scaled has no decimals and is its own rounding. -/
def roundToPlaces (places : Nat) (x : Float) : Float :=
  let scale := powerOfTen places
  let scaled := x * scale
  if scaled.isFinite then
    let rounded := roundHalfAway scaled / scale
    if rounded == 0 then 0 else rounded
  else
    x

end LinProg.Binary64
