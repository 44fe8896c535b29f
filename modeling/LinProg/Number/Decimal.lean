import LinProg.Number.Binary64

/-!
# Decimals

A `Decimal` is `± digits · 10 ^ exponent`.  `Decimal.shortest` is the decimal of a finite double
with the fewest digits among those that read back as that double, and of these the closest one; it
is found by looking for the coarsest decimal grid with a point among the reals that round to the
double.  Decimals are written positionally, never with an exponent, and `read` takes such a text
back to the number it denotes.
-/

namespace LinProg

structure Decimal where
  negative : Bool
  digits : Nat
  exponent : Int
  deriving DecidableEq, Repr

namespace Decimal

/-- The number a decimal denotes. -/
def toRat (d : Decimal) : Rat :=
  let magnitude : Rat :=
    if 0 ≤ d.exponent then (d.digits * tenPow d.exponent.toNat : Nat)
    else mkRat d.digits (tenPow (-d.exponent).toNat)
  if d.negative then -magnitude else magnitude

/-! ## Written form -/

/-- `digits` followed by zeros for a positive exponent, else with a point inserted; at least one
digit stands in front of the point. -/
def magnitudeChars (digits : Nat) (exponent : Int) : List Char :=
  let ds := Nat.toDigits 10 digits
  if 0 ≤ exponent then
    ds ++ List.replicate (if digits = 0 then 0 else exponent.toNat) '0'
  else
    let places := (-exponent).toNat
    let padded := List.replicate (places + 1 - ds.length) '0' ++ ds
    padded.take (padded.length - places) ++ '.' :: padded.drop (padded.length - places)

def chars (d : Decimal) : List Char :=
  if d.negative then '-' :: magnitudeChars d.digits d.exponent
  else magnitudeChars d.digits d.exponent

/-! ## Reading -/

/-- The number that decimal digits are a numeral of, if there are any and nothing else. -/
def readDigits (digits : List Char) : Option Nat :=
  if !digits.isEmpty && digits.all Char.isDigit then some (Nat.ofDigitChars 10 digits 0) else none

/-- The number that a numeral denotes, which may start with a sign. -/
def readInteger : List Char → Option Int
  | '-' :: digits => (readDigits digits).map fun n : Nat => -(n : Int)
  | '+' :: digits => (readDigits digits).map fun n : Nat => (n : Int)
  | digits => (readDigits digits).map fun n : Nat => (n : Int)

/-- The part of a text in front of its first point, or all of it. -/
def beforePoint (text : List Char) : List Char := text.takeWhile (· != '.')

def behindPoint (text : List Char) : List Char := (text.dropWhile (· != '.')).tail

/-- The number that a decimal text denotes.  What stands on both sides of the point is glued
together and read as one numeral, which each digit behind the point divides by ten.  A text that is
no decimal counts as zero. -/
def read (text : List Char) : Rat :=
  match readInteger (beforePoint text ++ behindPoint text) with
  | some numerator => mkRat numerator (tenPow (behindPoint text).length)
  | none => 0

/-! ## Fewest digits -/

/-- The positive reals that round to one double, in units of `num / den`: the double is four times
its significand, the ends lie halfway to its neighbours. -/
structure Basin where
  value : Nat
  low : Nat
  high : Nat
  /-- A tie goes to the even significand, so the ends belong to it exactly then. -/
  closed : Bool
  num : Nat
  den : Nat

/-- Below a power of two the next double is half as far away. -/
def Basin.ofSignificand (m : Nat) (e : Int) : Basin where
  value := 4 * m
  low := if m = twoPow 52 ∧ -1074 < e then 4 * m - 1 else 4 * m - 2
  high := 4 * m + 2
  closed := m % 2 = 0
  num := twoPow (e - 2).toNat
  den := twoPow (2 - e).toNat

/-- Whether `d · 10 ^ k` rounds to the double. -/
def Basin.contains (b : Basin) (d : Nat) (k : Int) : Bool :=
  let point := d * tenPow k.toNat * b.den
  let scale := b.num * tenPow (-k).toNat
  if b.closed then b.low * scale ≤ point && point ≤ b.high * scale
  else b.low * scale < point && point < b.high * scale

/-- The multiple of `10 ^ k` in the basin that is closest to the double, the larger one of two
equally close. -/
def Basin.pick? (b : Basin) (k : Int) : Option Nat :=
  let scaled := b.value * b.num * tenPow (-k).toNat
  let grid := b.den * tenPow k.toNat
  let below := scaled / grid
  match b.contains below k, b.contains (below + 1) k with
  | true, true => some (if 2 * (scaled % grid) < grid then below else below + 1)
  | true, false => some below
  | false, true => some (below + 1)
  | false, false => none

/-- Tries the grids `10 ^ k`, `10 ^ (k - 1)`, … in turn. -/
def Basin.search (b : Basin) : Nat → Int → Nat × Int
  | 0, k => (0, k)
  | fuel + 1, k =>
    match b.pick? k with
    | some d => (d, k)
    | none => b.search fuel (k - 1)

/-- A decimal exponent that is too coarse for any double below `2 ^ k`. -/
def coarseExponent (k : Int) : Int := k * 30103 / 100000 + 1

/-- The closest of the shortest decimals that read back as a finite double.  Seventeen digits
always suffice, and the search starts at most three grids too early. -/
def shortest (x : Float) : Decimal :=
  let m := Binary64.significand x
  if m = 0 then ⟨Binary64.signBit x, 0, 0⟩
  else
    let e := Binary64.exponent x
    let (digits, exponent) :=
      (Basin.ofSignificand m e).search 24 (coarseExponent (m.log2 + e + 1))
    ⟨Binary64.signBit x, digits, exponent⟩

end Decimal

/-- A double is written as its shortest decimal, or as the name of what is no number. -/
def Binary64.chars (x : Float) : List Char :=
  if x.isNaN then ['N', 'a', 'N']
  else if x.isInf then (if signBit x then ['-', 'i', 'n', 'f'] else ['i', 'n', 'f'])
  else (Decimal.shortest x).chars

def Binary64.text (x : Float) : String := String.ofList (chars x)

end LinProg
