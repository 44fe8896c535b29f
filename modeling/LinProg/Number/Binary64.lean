/-!
# Doubles as integers

A finite double is `± significand · 2 ^ exponent`.  `nearest` is the way back: the double closest
to a fraction of naturals, ties to the even significand.  The roundings to an integer (`floor`,
`ceil`, `roundHalfAway`) are integer divisions of the significand; each keeps the sign of its
argument, on zeros too.
-/

namespace LinProg

/-- The `n`th power of two. -/
def twoPow (n : Nat) : Nat := Nat.pow 2 n

/-- The `n`th power of ten. -/
def tenPow (n : Nat) : Nat := Nat.pow 10 n

namespace Binary64

/-! ## Reading the bits -/

def signBit (x : Float) : Bool := twoPow 63 ≤ x.toBits.toNat

def fractionBits (x : Float) : Nat := x.toBits.toNat % twoPow 52

def exponentBits (x : Float) : Nat := x.toBits.toNat / twoPow 52 % twoPow 11

/-- The integer part of the magnitude; doubles below the normal range have no leading bit. -/
def significand (x : Float) : Nat :=
  if exponentBits x = 0 then fractionBits x else twoPow 52 + fractionBits x

/-- The power of two that scales the significand. -/
def exponent (x : Float) : Int := (max (exponentBits x) 1 : Nat) - 1075

/-! ## Writing the bits -/

/-- `num / den` rounded to an integer, ties to even. -/
def divHalfEven (num den : Nat) : Nat :=
  let q := num / den
  let r := num % den
  if 2 * r < den then q else if den < 2 * r then q + 1 else q + q % 2

/-- The largest `k` with `2 ^ k ≤ num / den`, for positive arguments. -/
def floorLog2 (num den : Nat) : Int :=
  let k : Int := (num.log2 : Int) - (den.log2 : Int)
  if den * twoPow k.toNat ≤ num * twoPow (-k).toNat then k else k - 1

/-- Bits of positive infinity. -/
def infinityBits : Nat := 2047 * twoPow 52

/-- Bits of the magnitude nearest to `num / den`; too large a magnitude becomes infinite. -/
def magnitudeBits (num den : Nat) : Nat :=
  let e := max (floorLog2 num den - 52) (-1074)
  let digits := divHalfEven (num * twoPow (-e).toNat) (den * twoPow e.toNat)
  min ((e + 1074).toNat * twoPow 52 + digits) infinityBits

/-- The double nearest to `± num / den`, ties to even. -/
def nearest (negative : Bool) (num den : Nat) : Float :=
  let bits := if num = 0 then 0 else magnitudeBits num den
  Float.ofBits (UInt64.ofNat (if negative then twoPow 63 + bits else bits))

/-! ## Integers -/

/-- Applies an integer division to the fraction `significand / 2 ^ d` of a double that has one. -/
def wholeBy (divide : Nat → Nat → Nat) (x : Float) : Float :=
  if x.isFinite && decide (exponent x < 0) then
    nearest (signBit x) (divide (significand x) (twoPow (-exponent x).toNat)) 1
  else
    x

/-- `num / den` rounded down. -/
def divDown (num den : Nat) : Nat := num / den

/-- `num / den` rounded up. -/
def divUp (num den : Nat) : Nat := (num + (den - 1)) / den

/-- `num / den` rounded to the nearest integer, halves up. -/
def divHalfUp (num den : Nat) : Nat := (2 * num + den) / (2 * den)

/-- The largest integer that is not larger. -/
def floor (x : Float) : Float :=
  if signBit x then wholeBy divUp x else wholeBy divDown x

/-- The smallest integer that is not smaller. -/
def ceil (x : Float) : Float :=
  if signBit x then wholeBy divDown x else wholeBy divUp x

/-- The nearest integer, halves away from zero. -/
def roundHalfAway (x : Float) : Float := wholeBy divHalfUp x

/-- Whether a value has no fractional part.  Infinities have none. -/
def isIntegral (x : Float) : Bool := floor x == ceil x

end Binary64

end LinProg
