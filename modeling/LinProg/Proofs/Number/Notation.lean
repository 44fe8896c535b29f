import LinProg.Number.Instances
import Mathlib.Algebra.Field.Rat
import Mathlib.Algebra.Order.Field.Rat
import Mathlib.Data.List.TakeWhile
import Mathlib.Tactic.Ring

/-!
# Positional notation

`Denotes` says which number a decimal text stands for: digits in front of the point count ones, tens
and so on, those behind it tenths and so on, and a minus sign changes the sign of all.  Reading a
text gives what it denotes (`read_of_denotes`), and the text of a decimal denotes the decimal
(`denotes_chars`).  Both rest on `wholePart_add_fractionPart`: the two parts are worth as much as
one numeral made of the digits of both, over a power of ten.
-/

namespace LinProg

namespace Decimal

theorem cast_tenPow (k : Nat) : (tenPow k : Rat) = 10 ^ k := Nat.cast_pow 10 k

/-! ## What a text denotes -/

/-- Decimal digits, one at least.  Zeros may lead. -/
def IsNumeral (digits : List Char) : Prop := digits ≠ [] ∧ ∀ c ∈ digits, c.isDigit = true

def digit (c : Char) : Nat := c.toNat - '0'.toNat

/-- Digits in front of the point: the last one counts ones, every other one ten times as much as the
next. -/
def wholePart : List Char → Rat
  | [] => 0
  | c :: rest => digit c * 10 ^ rest.length + wholePart rest

/-- Digits behind the point: the first one counts tenths, every other one a tenth of the one before.
-/
def fractionPart : List Char → Rat
  | [] => 0
  | c :: rest => (digit c + fractionPart rest) / 10

inductive DenotesMagnitude : List Char → Rat → Prop
  | whole {digits : List Char} : IsNumeral digits → DenotesMagnitude digits (wholePart digits)
  | pointed {digits places : List Char} : IsNumeral digits → IsNumeral places →
      DenotesMagnitude (digits ++ '.' :: places) (wholePart digits + fractionPart places)

/-- The number that a decimal text denotes, by the places of its digits. -/
inductive Denotes : List Char → Rat → Prop
  | unsigned {text : List Char} {q : Rat} : DenotesMagnitude text q → Denotes text q
  | negative {text : List Char} {q : Rat} : DenotesMagnitude text q → Denotes ('-' :: text) (-q)

/-! ## One numeral for both parts -/

/-- The first digit is worth what its place says. -/
theorem ofDigitChars_cons (c : Char) (rest : List Char) :
    Nat.ofDigitChars 10 (c :: rest) 0 =
      10 ^ rest.length * digit c + Nat.ofDigitChars 10 rest 0 := by
  rw [Nat.ofDigitChars_cons, Nat.mul_zero, Nat.zero_add]
  exact Nat.ofDigitChars_eq_ofDigitChars_zero

theorem wholePart_eq (digits : List Char) : wholePart digits = Nat.ofDigitChars 10 digits 0 := by
  induction digits with
  | nil => rfl
  | cons c rest ih =>
    rw [wholePart, ih, ofDigitChars_cons]
    push_cast
    ring

theorem fractionPart_mul (places : List Char) :
    fractionPart places * 10 ^ places.length = Nat.ofDigitChars 10 places 0 := by
  induction places with
  | nil => exact zero_mul _
  | cons c rest ih =>
    rw [fractionPart, ofDigitChars_cons, List.length_cons]
    push_cast
    rw [← ih]
    ring

/-- Glued together, the digits on both sides of the point lose nothing but the point. -/
theorem wholePart_add_fractionPart (digits places : List Char) :
    wholePart digits + fractionPart places =
      Nat.ofDigitChars 10 (digits ++ places) 0 / 10 ^ places.length := by
  have hpow : (10 : Rat) ^ places.length ≠ 0 := pow_ne_zero _ (by norm_num)
  have hglued : Nat.ofDigitChars 10 (digits ++ places) 0 =
      10 ^ places.length * Nat.ofDigitChars 10 digits 0 + Nat.ofDigitChars 10 places 0 :=
    (Nat.ofDigitChars_append 0).trans Nat.ofDigitChars_eq_ofDigitChars_zero
  rw [eq_div_iff hpow, add_mul, fractionPart_mul, wholePart_eq, hglued]
  push_cast
  ring

theorem IsNumeral.append {digits places : List Char} (hd : IsNumeral digits)
    (hp : ∀ c ∈ places, c.isDigit = true) : IsNumeral (digits ++ places) := by
  refine ⟨List.append_ne_nil_of_left_ne_nil hd.1 _, fun c hc => ?_⟩
  exact (List.mem_append.1 hc).elim (hd.2 c) (hp c)

/-! ## Reading -/

theorem readDigits_of_isNumeral {digits : List Char} (h : IsNumeral digits) :
    readDigits digits = some (Nat.ofDigitChars 10 digits 0) := by
  have hempty : digits.isEmpty = false := List.isEmpty_eq_false_iff.2 h.1
  have hall : digits.all Char.isDigit = true := List.all_eq_true.2 h.2
  rw [readDigits, hempty, hall]
  rfl

/-- A digit is no sign. -/
theorem readInteger_of_isNumeral {digits : List Char} (h : IsNumeral digits) :
    readInteger digits = some (Nat.ofDigitChars 10 digits 0 : Int) := by
  unfold readInteger
  split
  next rest => exact absurd (h.2 '-' List.mem_cons_self) (by decide)
  next rest => exact absurd (h.2 '+' List.mem_cons_self) (by decide)
  next => rw [readDigits_of_isNumeral h, Option.map_some]

theorem readInteger_negative {digits : List Char} (h : IsNumeral digits) :
    readInteger ('-' :: digits) = some (-(Nat.ofDigitChars 10 digits 0 : Int)) := by
  rw [readInteger, readDigits_of_isNumeral h, Option.map_some]

theorem ne_point_of_isDigit {c : Char} (h : c.isDigit = true) : (c != '.') = true := by
  rw [bne_iff_ne]
  rintro rfl
  exact absurd h (by decide)

/-- Splitting a text at the point gives back the two parts that it was made of. -/
theorem DenotesMagnitude.split {text : List Char} {q : Rat} (h : DenotesMagnitude text q) :
    IsNumeral (beforePoint text ++ behindPoint text) ∧
      q = Nat.ofDigitChars 10 (beforePoint text ++ behindPoint text) 0 /
        10 ^ (behindPoint text).length := by
  unfold beforePoint behindPoint
  cases h with
  | whole hd =>
    have hpoint : ∀ c ∈ text, (c != '.') = true := fun c hc => ne_point_of_isDigit (hd.2 c hc)
    rw [List.takeWhile_eq_self_iff.2 hpoint, List.dropWhile_eq_nil_iff.2 hpoint, List.tail_nil,
      List.append_nil, List.length_nil, pow_zero, div_one]
    exact ⟨hd, wholePart_eq text⟩
  | @pointed digits places hd hp =>
    have hpoint : ∀ c ∈ digits, (c != '.') = true := fun c hc => ne_point_of_isDigit (hd.2 c hc)
    have hfront : (digits ++ '.' :: places).takeWhile (· != '.') = digits := by
      rw [List.takeWhile_append_of_pos hpoint, List.takeWhile_cons_of_neg (by decide),
        List.append_nil]
    have hrest : (digits ++ '.' :: places).dropWhile (· != '.') = '.' :: places := by
      rw [List.dropWhile_append_of_pos hpoint, List.dropWhile_cons_of_neg (by decide)]
    rw [hfront, hrest, List.tail_cons]
    exact ⟨hd.append hp.2, wholePart_add_fractionPart digits places⟩

/-- Reading gives what the places of the digits say, whatever the sign and however many zeros lead.
-/
theorem read_of_denotes {text : List Char} {q : Rat} (h : Denotes text q) : read text = q := by
  cases h with
  | unsigned hq =>
    obtain ⟨hnumeral, hvalue⟩ := hq.split
    rw [read, readInteger_of_isNumeral hnumeral]
    dsimp only
    rw [Rat.mkRat_eq_div, Int.cast_natCast, cast_tenPow, hvalue]
  | @negative text q hq =>
    obtain ⟨hnumeral, hvalue⟩ := hq.split
    have hbefore : beforePoint ('-' :: text) = '-' :: beforePoint text := rfl
    have hbehind : behindPoint ('-' :: text) = behindPoint text := rfl
    rw [read, hbefore, hbehind, List.cons_append, readInteger_negative hnumeral]
    dsimp only
    rw [Rat.mkRat_eq_div, Int.cast_neg, Int.cast_natCast, cast_tenPow, hvalue, neg_div]

/-! ## Writing -/

def magnitude (d : Decimal) : Rat := d.digits * 10 ^ d.exponent

theorem toRat_eq (d : Decimal) : d.toRat = if d.negative then -d.magnitude else d.magnitude := by
  have hmagnitude : (if 0 ≤ d.exponent then ((d.digits * tenPow d.exponent.toNat : Nat) : Rat)
      else mkRat d.digits (tenPow (-d.exponent).toNat)) = d.magnitude := by
    unfold magnitude
    split
    next h =>
      obtain ⟨k, hk⟩ := Int.eq_ofNat_of_zero_le h
      rw [hk, Int.toNat_natCast, Nat.cast_mul, cast_tenPow, zpow_natCast]
    next h =>
      obtain ⟨k, hk⟩ := Int.exists_eq_neg_ofNat (Int.not_le.1 h).le
      rw [hk, neg_neg, Int.toNat_natCast, Rat.mkRat_eq_div, Int.cast_natCast, cast_tenPow, zpow_neg,
        zpow_natCast, div_eq_mul_inv]
  rw [toRat, hmagnitude]

theorem isNumeral_toDigits (n : Nat) : IsNumeral (Nat.toDigits 10 n) :=
  ⟨Nat.toDigits_ne_nil, fun _ => Nat.isDigit_of_mem_toDigits (by decide) (by decide)⟩

theorem isDigit_of_mem_replicate {k : Nat} {c : Char} (h : c ∈ List.replicate k '0') :
    c.isDigit = true := by
  rw [List.eq_of_mem_replicate h]
  decide

theorem denotesMagnitude_insertPoint {digits : List Char} {k : Nat}
    (hdigits : ∀ c ∈ digits, c.isDigit = true) (hpos : 0 < k) (hlt : k < digits.length) :
    DenotesMagnitude
      (digits.take (digits.length - k) ++ '.' :: digits.drop (digits.length - k))
      (Nat.ofDigitChars 10 digits 0 / 10 ^ k) := by
  have hplaces : (digits.drop (digits.length - k)).length = k := by
    rw [List.length_drop]
    omega
  have hvalue : (Nat.ofDigitChars 10 digits 0 : Rat) / 10 ^ k =
      wholePart (digits.take (digits.length - k)) +
        fractionPart (digits.drop (digits.length - k)) := by
    rw [wholePart_add_fractionPart, List.take_append_drop, hplaces]
  have hfront : IsNumeral (digits.take (digits.length - k)) := by
    refine ⟨?_, fun c hc => hdigits c (List.mem_of_mem_take hc)⟩
    rw [← List.length_pos_iff, List.length_take]
    omega
  have hbehind : IsNumeral (digits.drop (digits.length - k)) := by
    refine ⟨?_, fun c hc => hdigits c (List.mem_of_mem_drop hc)⟩
    rwa [← List.length_pos_iff, hplaces]
  rw [hvalue]
  exact .pointed hfront hbehind

/-- A positive exponent writes zeros behind the digits, of a negative one as many digits go behind
the point. -/
theorem denotes_magnitudeChars (digits : Nat) (exponent : Int) :
    DenotesMagnitude (magnitudeChars digits exponent) (digits * 10 ^ exponent) := by
  have hdigits := isNumeral_toDigits digits
  unfold magnitudeChars
  dsimp only
  split
  next h =>
    obtain ⟨k, rfl⟩ := Int.eq_ofNat_of_zero_le h
    have hvalue : (digits : Rat) * 10 ^ (k : Int) = wholePart (Nat.toDigits 10 digits ++
        List.replicate (if digits = 0 then 0 else (k : Int).toNat) '0') := by
      rw [wholePart_eq, Nat.ofDigitChars_append, Nat.ofDigitChars_ten_toDigits,
        Nat.ofDigitChars_replicate_zero, zpow_natCast, Int.toNat_natCast]
      split
      next h0 => simp [h0]
      next => push_cast; ring
    rw [hvalue]
    exact .whole (hdigits.append fun _ => isDigit_of_mem_replicate)
  next h =>
    obtain ⟨k, hk⟩ := Int.exists_eq_neg_ofNat (Int.not_le.1 h).le
    rw [hk, neg_neg, Int.toNat_natCast]
    generalize hpadded : List.replicate (k + 1 - (Nat.toDigits 10 digits).length) '0' ++
      Nat.toDigits 10 digits = padded
    have hlength : k < padded.length := by
      rw [← hpadded, List.length_append, List.length_replicate]
      omega
    have hdigit : ∀ c ∈ padded, c.isDigit = true := by
      rw [← hpadded]
      exact fun c hc => (List.mem_append.1 hc).elim isDigit_of_mem_replicate (hdigits.2 c)
    -- zeros in front are worth nothing
    have hvalue : (digits : Rat) * 10 ^ (-(k : Int)) = Nat.ofDigitChars 10 padded 0 / 10 ^ k := by
      rw [← hpadded, Nat.ofDigitChars_append, Nat.ofDigitChars_replicate_zero, Nat.mul_zero,
        Nat.ofDigitChars_ten_toDigits, zpow_neg, zpow_natCast, div_eq_mul_inv]
    rw [hvalue]
    exact denotesMagnitude_insertPoint hdigit (by omega) hlength

theorem denotes_chars (d : Decimal) : Denotes d.chars d.toRat := by
  have hmagnitude : DenotesMagnitude (magnitudeChars d.digits d.exponent) d.magnitude :=
    denotes_magnitudeChars d.digits d.exponent
  rw [toRat_eq, chars]
  split
  next => exact .negative hmagnitude
  next => exact .unsigned hmagnitude

end Decimal

/-! ## The texts of doubles -/

namespace Binary64

theorem isFinite_eq (x : Float) : x.isFinite = !(x.isNaN || x.isInf) := by
  show x.toModel.unpack.isFinite = !(x.toModel.unpack.isNaN || x.toModel.unpack.isInf)
  cases x.toModel.unpack <;> rfl

theorem chars_of_isFinite {x : Float} (h : x.isFinite = true) :
    chars x = (Decimal.shortest x).chars := by
  rw [isFinite_eq, Bool.not_eq_true', Bool.or_eq_false_iff] at h
  rw [chars, h.1, h.2]
  rfl

theorem read_chars_of_not_isFinite {x : Float} (h : x.isFinite = false) :
    Decimal.read (chars x) = 0 := by
  rw [isFinite_eq, Bool.not_eq_false', Bool.or_eq_true] at h
  unfold chars
  split
  next => rfl
  next hnan =>
    rw [if_pos (h.resolve_left hnan)]
    split <;> rfl

end Binary64

namespace Exact

theorem ofFloat_of_isFinite {x : Float} (h : x.isFinite = true) :
    ofFloat x = (Decimal.shortest x).toRat := by
  rw [ofFloat, Binary64.chars_of_isFinite h]
  exact Decimal.read_of_denotes (Decimal.denotes_chars _)

theorem ofFloat_of_not_isFinite {x : Float} (h : x.isFinite = false) : ofFloat x = 0 :=
  Binary64.read_chars_of_not_isFinite h

end Exact

end LinProg
