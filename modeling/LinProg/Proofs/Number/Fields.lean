import LinProg.Proofs.Number.Decimal
import Mathlib.Data.Rat.Floor

/-!
# Doubles denote rationals

A finite double denotes `± significand · 2 ^ exponent`, and has no other data than these three
fields (`eq_of_fields`).  Comparisons of doubles are those of the rationals, because significands
use all their bits unless the exponent is the smallest one.
-/

namespace LinProg

namespace Binary64

open Float.Model Float.Model.UnpackedFloat

/-! ## Reading -/

def magnitude (x : Float) : Rat := significand x * 2 ^ exponent x

def signed (negative : Bool) (q : Rat) : Rat := if negative then -q else q

theorem signed_zero (negative : Bool) : signed negative 0 = 0 := by
  cases negative
  · rfl
  · exact neg_zero

theorem signed_eq_zero_iff (negative : Bool) {q : Rat} : signed negative q = 0 ↔ q = 0 := by
  cases negative
  · rfl
  · exact neg_eq_zero

theorem abs_signed (negative : Bool) {q : Rat} (hq : 0 ≤ q) : |signed negative q| = q := by
  cases negative
  · exact abs_of_nonneg hq
  · exact (abs_neg q).trans (abs_of_nonneg hq)

theorem signed_lt_zero_iff (negative : Bool) {q : Rat} (hq : 0 < q) :
    signed negative q < 0 ↔ negative = true := by
  cases negative
  · exact iff_of_false hq.not_gt Bool.false_ne_true
  · exact iff_of_true (neg_lt_zero.2 hq) rfl

/-- The rational that a finite double denotes; what is not finite counts as zero. -/
def toRat (x : Float) : Rat := if x.isFinite then signed (signBit x) (magnitude x) else 0

theorem toRat_of_isFinite {x : Float} (h : x.isFinite = true) :
    toRat x = signed (signBit x) (magnitude x) :=
  if_pos h

theorem toRat_of_not_isFinite {x : Float} (h : x.isFinite = false) : toRat x = 0 :=
  if_neg (by simp [h])

theorem magnitude_nonneg (x : Float) : 0 ≤ magnitude x := by
  unfold magnitude
  positivity

theorem magnitude_eq_zero_iff (x : Float) : magnitude x = 0 ↔ significand x = 0 := by
  have hpow : (2 : Rat) ^ exponent x ≠ 0 := zpow_ne_zero _ two_ne_zero
  rw [magnitude, mul_eq_zero, or_iff_left hpow, Nat.cast_eq_zero]

theorem toRat_eq_zero_iff {x : Float} (h : x.isFinite = true) :
    toRat x = 0 ↔ significand x = 0 := by
  rw [toRat_of_isFinite h, signed_eq_zero_iff, magnitude_eq_zero_iff]

theorem fractionBits_lt (x : Float) : fractionBits x < 2 ^ 52 := Nat.mod_lt _ (by decide)

theorem significand_lt (x : Float) : significand x < 2 ^ 53 := by
  have := fractionBits_lt x
  have h52 : twoPow 52 = 2 ^ 52 := rfl
  unfold significand
  split <;> omega

/-- A significand uses all its bits unless the exponent is the smallest one. -/
theorem significand_full {x : Float} (h : -1074 < exponent x) : 2 ^ 52 ≤ significand x := by
  have h52 : twoPow 52 = 2 ^ 52 := rfl
  unfold exponent at h
  unfold significand
  split
  · omega
  · omega

theorem neg_1074_le_exponent (x : Float) : -1074 ≤ exponent x := by
  unfold exponent
  omega

theorem sign_unpackSign (x : Float) :
    Sign.ofBitVec (@unpackSign Format.binary64 (bits x)) =
      if signBit x then .negative else .positive := by
  rw [signBit_eq]
  obtain h | h := BitVec.eq_zero_or_eq_one (@unpackSign Format.binary64 (bits x)) <;>
    rw [h] <;> rfl

theorem unpack_of_isFinite {x : Float} (h : x.isFinite = true) :
    (significand x = 0 ∧
      x.toModel.unpack = .zero (if signBit x then .negative else .positive)) ∨
    ∃ hm, x.toModel.unpack =
      .finite (if signBit x then .negative else .positive) (significand x) (exponent x) hm := by
  have hexponent := exponentBits_eq x
  have hfraction := fractionBits_eq x
  have hbias : ((Format.binary64.exponentBias : Nat) : Int) = 1023 := rfl
  have hwidth : ((Format.binary64.mantissaBitsWithoutImplicit : Nat) : Int) = 52 := rfl
  show _ ∧ UnpackedFloat.unpack Format.binary64 (bits x) = _ ∨
    ∃ hm, UnpackedFloat.unpack Format.binary64 (bits x) = _
  unfold UnpackedFloat.unpack
  simp only [sign_unpackSign]
  rw [if_neg ((isFinite_iff x).1 h)]
  split
  next hzero =>
    rw [hzero] at hexponent
    change exponentBits x = 0 at hexponent
    have hs : significand x = fractionBits x := if_pos hexponent
    have he : exponent x = -1074 := by
      unfold exponent
      rw [hexponent]
      rfl
    split
    next hm =>
      rw [hm] at hfraction
      exact .inl ⟨hs.trans hfraction, rfl⟩
    next hm =>
      refine .inr ⟨?_, ?_⟩
      · rw [hs, hfraction]
        exact Nat.pos_of_ne_zero fun h0 => hm (BitVec.eq_of_toNat_eq h0)
      · congr 1
        · rw [hs, hfraction]
        · rw [hbias, hwidth, he, hzero]
          rfl
  next hzero =>
    have hne : exponentBits x ≠ 0 := by
      rw [hexponent]
      intro h
      exact hzero (BitVec.eq_of_toNat_eq h)
    have hs : significand x = twoPow 52 + fractionBits x := if_neg hne
    have h52 : twoPow 52 = 2 ^ 52 := rfl
    refine .inr ⟨by omega, ?_⟩
    congr 1
    · rw [hs, hfraction, BitVec.toNat_append, ← Nat.shiftLeft_add_eq_or_of_lt (BitVec.isLt _)]
      rfl
    · unfold exponent
      rw [hbias, hwidth, ← hexponent]
      omega

/-! ## Comparisons -/

/-- A larger exponent makes for a larger number, as its significand is full. -/
theorem scaled_lt_of_exponent_lt {m m' : Nat} {e e' : Int} (hm : m < 2 ^ 53) (hm' : 2 ^ 52 ≤ m')
    (h : e < e') : (m : Rat) * 2 ^ e < m' * 2 ^ e' := by
  have hpos : (0 : Rat) < 2 ^ e := zpow_pos (by norm_num) e
  have hm : (m : Rat) < 2 ^ 53 := by exact_mod_cast hm
  have hm' : (2 : Rat) ^ 52 ≤ m' := by exact_mod_cast hm'
  calc (m : Rat) * 2 ^ e < 2 ^ 53 * 2 ^ e := mul_lt_mul_of_pos_right hm hpos
    _ = 2 ^ 52 * 2 ^ (e + 1) := by rw [zpow_add_one₀ (by norm_num)]; ring
    _ ≤ m' * 2 ^ e' :=
      mul_le_mul hm' (zpow_le_zpow_right₀ (by norm_num) (by omega)) (zpow_pos (by norm_num) _).le
        (by positivity)

theorem cmp_magnitude (x y : Float) :
    (compare (exponent x) (exponent y)).then (compare (significand x) (significand y)) =
      cmp (magnitude x) (magnitude y) := by
  unfold magnitude
  rcases lt_trichotomy (exponent x) (exponent y) with h | h | h
  · have hfull : 2 ^ 52 ≤ significand y :=
      significand_full (by have := neg_1074_le_exponent x; omega)
    rw [Int.compare_eq_lt.2 h, Ordering.lt_then, eq_comm, cmp_eq_lt_iff]
    exact scaled_lt_of_exponent_lt (significand_lt x) hfull h
  · have hpos : (0 : Rat) < 2 ^ exponent y := zpow_pos (by norm_num) _
    rw [h, Int.compare_eq_eq.2 rfl, Ordering.eq_then, cmp_mul_pos_right hpos, cmp_eq_compare]
    rcases lt_trichotomy (significand x) (significand y) with hs | hs | hs
    · rw [Nat.compare_eq_lt.2 hs, eq_comm, compare_lt_iff_lt]
      exact_mod_cast hs
    · rw [hs, Nat.compare_eq_eq.2 rfl, eq_comm, compare_eq_iff_eq]
    · rw [Nat.compare_eq_gt.2 hs, eq_comm, compare_gt_iff_gt]
      exact_mod_cast hs
  · have hfull : 2 ^ 52 ≤ significand x :=
      significand_full (by have := neg_1074_le_exponent y; omega)
    rw [Int.compare_eq_gt.2 h, Ordering.gt_then, eq_comm, cmp_eq_gt_iff]
    exact scaled_lt_of_exponent_lt (significand_lt y) hfull h

theorem compare_unpack {x y : Float} (hx : x.isFinite = true) (hy : y.isFinite = true) :
    UnpackedFloat.compare x.toModel.unpack y.toModel.unpack = some (cmp (toRat x) (toRat y)) := by
  rw [toRat_of_isFinite hx, toRat_of_isFinite hy]
  have hzero {z : Float} (h : significand z = 0) : magnitude z = 0 :=
    (magnitude_eq_zero_iff z).2 h
  have hpos {z : Float} (h : 0 < significand z) : 0 < magnitude z :=
    mul_pos (Nat.cast_pos.2 h) (zpow_pos (by norm_num) _)
  rcases unpack_of_isFinite hx with ⟨hx0, hux⟩ | ⟨hmx, hux⟩ <;>
    rcases unpack_of_isFinite hy with ⟨hy0, huy⟩ | ⟨hmy, huy⟩ <;> rw [hux, huy]
  · rw [hzero hx0, hzero hy0]
    cases signBit x <;> cases signBit y <;> simp [UnpackedFloat.compare, signed]
  · have hlt : cmp 0 (magnitude y) = .lt := (cmp_eq_lt_iff _ _).2 (hpos hmy)
    have hgt : cmp 0 (-magnitude y) = .gt := (cmp_eq_gt_iff _ _).2 (neg_lt_zero.2 (hpos hmy))
    rw [hzero hx0]
    cases signBit x <;> cases signBit y <;> simp [UnpackedFloat.compare, signed, hlt, hgt]
  · have hgt : cmp (magnitude x) 0 = .gt := (cmp_eq_gt_iff _ _).2 (hpos hmx)
    have hlt : cmp (-magnitude x) 0 = .lt := (cmp_eq_lt_iff _ _).2 (neg_lt_zero.2 (hpos hmx))
    rw [hzero hy0]
    cases signBit x <;> cases signBit y <;> simp [UnpackedFloat.compare, signed, hlt, hgt]
  · have hneg : cmp (-magnitude x) (-magnitude y) = (cmp (magnitude x) (magnitude y)).swap := by
      rw [cmp_swap, ← cmp_sub_zero, ← cmp_sub_zero (magnitude y), neg_sub_neg]
    have hlt : cmp (-magnitude x) (magnitude y) = .lt :=
      (cmp_eq_lt_iff _ _).2 ((neg_lt_zero.2 (hpos hmx)).trans (hpos hmy))
    have hgt : cmp (magnitude x) (-magnitude y) = .gt :=
      (cmp_eq_gt_iff _ _).2 ((neg_lt_zero.2 (hpos hmy)).trans (hpos hmx))
    cases signBit x <;> cases signBit y <;>
      simp [UnpackedFloat.compare, signed, cmp_magnitude, hneg, hlt, hgt]

theorem lt_iff {x y : Float} (hx : x.isFinite = true) (hy : y.isFinite = true) :
    x < y ↔ toRat x < toRat y := by
  rw [lt_iff_compare, compare_unpack hx hy, Option.some_inj, cmp_eq_lt_iff]

theorem beq_iff {x y : Float} (hx : x.isFinite = true) (hy : y.isFinite = true) :
    (x == y) = true ↔ toRat x = toRat y := by
  rw [beq_iff_compare, compare_unpack hx hy, Option.some_inj, cmp_eq_eq_iff]

theorem isFinite_zero : (0 : Float).isFinite = true := by decide

theorem isFinite_one : (1 : Float).isFinite = true := by decide

theorem toRat_eq {x : Float} (negative : Bool) (m : Nat) (e : Int) (hfinite : x.isFinite = true)
    (hsign : signBit x = negative) (hm : significand x = m) (he : exponent x = e) :
    toRat x = signed negative (m * 2 ^ e) := by
  rw [toRat_of_isFinite hfinite, hsign, magnitude, hm, he]

theorem toRat_zero : toRat 0 = 0 := (toRat_eq_zero_iff isFinite_zero).2 (by decide)

theorem toRat_one : toRat 1 = 1 := by
  rw [toRat_eq false (2 ^ 52) (-52) isFinite_one (by decide) (by decide) (by decide)]
  norm_num [signed]

theorem isFinite_of_beq_one {x : Float} (h : (x == 1) = true) : x.isFinite = true := by
  rw [beq_iff_compare] at h
  show x.toModel.unpack.isFinite = true
  cases hx : x.toModel.unpack with
  | notANumber => rw [hx] at h; cases h
  | infinity s => rw [hx] at h; cases s <;> cases h
  | zero s => rfl
  | finite s m e hm => rfl

/-! ## Fields -/

theorem toNat_toBits (x : Float) :
    x.toBits.toNat =
      (signBit x).toNat * 2 ^ 63 + (exponentBits x * 2 ^ 52 + fractionBits x) := by
  have hlt : x.toBits.toNat < 2 ^ 64 := x.toBits.toNat_lt
  have hsign : (signBit x).toNat = x.toBits.toNat / 2 ^ 63 := by
    unfold signBit
    rw [twoPow_eq]
    by_cases h : 2 ^ 63 ≤ x.toBits.toNat
    · rw [decide_eq_true h, Bool.toNat_true]
      omega
    · rw [decide_eq_false h, Bool.toNat_false]
      omega
  rw [hsign, exponentBits, fractionBits, twoPow_eq, twoPow_eq]
  omega

/-- A double has no other data than its sign, significand and exponent. -/
theorem eq_of_fields {x y : Float} (hsign : signBit x = signBit y)
    (hm : significand x = significand y) (he : exponent x = exponent y) : x = y := by
  have h52 : twoPow 52 = 2 ^ 52 := rfl
  have hx := fractionBits_lt x
  have hy := fractionBits_lt y
  have hbits : x.toBits = y.toBits := by
    apply UInt64.toNat_inj.1
    rw [toNat_toBits, toNat_toBits, hsign]
    unfold significand at hm
    unfold exponent at he
    split at hm <;> split at hm <;> omega
  cases x with
  | ofModel a =>
    cases y with
    | ofModel b =>
      cases a
      cases b
      cases hbits
      rfl

theorem eq_zero_of_significand {x : Float} (h : significand x = 0) :
    x = if signBit x then -0 else 0 := by
  have hexponent : exponent x = -1074 := by
    have := neg_1074_le_exponent x
    by_contra hne
    have := significand_full (x := x) (by omega)
    omega
  cases hsign : signBit x
  · exact eq_of_fields hsign h hexponent
  · exact eq_of_fields hsign h hexponent

theorem significand_eq_zero_iff {x : Float} : significand x = 0 ↔ x = 0 ∨ x = -0 := by
  constructor
  · intro h
    have hzero := eq_zero_of_significand h
    split at hzero
    · exact .inr hzero
    · exact .inl hzero
  · rintro (rfl | rfl) <;> decide

theorem exponent_le {x : Float} (h : x.isFinite = true) : exponent x ≤ 971 := by
  have hne : exponentBits x ≠ 2047 := by
    rw [exponentBits_eq]
    exact fun heq => (isFinite_iff x).1 h (BitVec.eq_of_toNat_eq heq)
  have hlt : exponentBits x < 2048 := Nat.mod_lt _ (by decide)
  unfold exponent
  omega

/-- Bits that don't have the largest exponent are kept. -/
theorem toBits_ofBits {w : UInt64}
    (h : @unpackExponent Format.binary64 w.toBitVec ≠ -1#_) : (Float.ofBits w).toBits = w := by
  have hnumber : @isNaNBits Format.binary64 w.toBitVec = false :=
    decide_eq_false fun hnan => h hnan.1
  show UInt64.ofBitVec (UnpackedFloat.pack Format.binary64
    (UnpackedFloat.unpack Format.binary64 w.toBitVec)) = w
  rw [pack_unpack, if_neg (by simp [hnumber])]

/-- A double that is written by its fields reads as they say. -/
theorem ofBits_fields (negative : Bool) (e f : Nat) {word : Nat} (he : e < 2047) (hf : f < 2 ^ 52)
    (hword : word = negative.toNat * 2 ^ 63 + (e * 2 ^ 52 + f)) {x : Float}
    (hx : x = Float.ofBits (UInt64.ofNat word)) :
    x.isFinite = true ∧ signBit x = negative ∧ exponentBits x = e ∧ fractionBits x = f := by
  have hnegative : negative.toNat ≤ 1 := Bool.toNat_le negative
  have hnat : (UInt64.ofNat word).toNat = word := by
    rw [UInt64.toNat_ofNat']
    exact Nat.mod_eq_of_lt (by omega)
  have hexponent : @unpackExponent Format.binary64 (UInt64.ofNat word).toBitVec ≠ -1#_ := by
    intro h
    have := congrArg BitVec.toNat h
    simp only [unpackExponent, BitVec.toNat_cast, BitVec.extractLsb_toNat, UInt64.toNat_toBitVec,
      hnat, Nat.shiftRight_eq_div_pow, BitVec.neg_one_eq_allOnes, BitVec.toNat_allOnes] at this
    simp at this
    omega
  have hbits : x.toBits = UInt64.ofNat word := by rw [hx, toBits_ofBits hexponent]
  have h52 : twoPow 52 = 2 ^ 52 := rfl
  have h11 : twoPow 11 = 2 ^ 11 := rfl
  have h63 : twoPow 63 = 2 ^ 63 := rfl
  refine ⟨(isFinite_iff x).2 ?_, ?_, ?_, ?_⟩
  · rw [bits, hbits]
    exact hexponent
  · rw [signBit, hbits, hnat, h63, hword]
    cases negative
    · simp
      omega
    · simp
  · rw [exponentBits, hbits, hnat, h52, h11]
    omega
  · rw [fractionBits, hbits, hnat, h52]
    omega

end Binary64

end LinProg
