import LinProg.Proofs.Number.Notation
import LinProg.Proofs.Number.Sign

/-!
# Reading doubles exactly

The number that a double's shortest decimal denotes changes its sign with the double: negation only
flips the sign bit, and the digits are found without it.
-/

namespace LinProg

open Float.Model Float.Model.UnpackedFloat

namespace Binary64

/-- Negating a number gives it the other sign and keeps the other fields. -/
theorem pack_neg_unpack_packComponents (s : Sign) (e : BitVec 11) (m : BitVec 52)
    (h : e = (-1#_) → m = 0#_) :
    UnpackedFloat.pack Format.binary64
        (UnpackedFloat.unpack Format.binary64 (packComponents Format.binary64 s e m)).neg =
      packComponents Format.binary64 (-s) e m := by
  have hneg : (UnpackedFloat.unpack Format.binary64 (packComponents Format.binary64 s e m)).neg =
      UnpackedFloat.unpack Format.binary64 (packComponents Format.binary64 (-s) e m) := by
    unfold UnpackedFloat.unpack
    simp only [unpackMantissa_packComponents, unpackExponent_packComponents,
      unpackSign_packComponents, Sign.ofBitVec_toBitVec]
    split
    next he => rw [if_pos (h he), if_pos (h he), UnpackedFloat.neg]
    next =>
      split
      · split <;> rfl
      · rfl
  have hnumber : @isNaNBits Format.binary64 (packComponents Format.binary64 (-s) e m) = false := by
    simpa [isNaNBits] using h
  rw [hneg, pack_unpack, if_neg (by simp [hnumber])]

theorem isFinite_iff (x : Float) :
    x.isFinite = true ↔ @unpackExponent Format.binary64 (bits x) ≠ (-1#_) := by
  show (UnpackedFloat.unpack Format.binary64 (bits x)).isFinite = true ↔ _
  unfold UnpackedFloat.unpack
  dsimp only
  split
  next h =>
    refine iff_of_false ?_ fun hne => hne h
    split <;> exact Bool.false_ne_true
  next h =>
    refine iff_of_true ?_ h
    split
    · split <;> rfl
    · rfl

theorem bits_neg {x : Float} (h : x.isFinite = true) :
    bits (-x) = packComponents Format.binary64
      (-Sign.ofBitVec (@unpackSign Format.binary64 (bits x)))
      (@unpackExponent Format.binary64 (bits x))
      (@unpackMantissa Format.binary64 (bits x)) := by
  show UnpackedFloat.pack Format.binary64
    (UnpackedFloat.unpack Format.binary64 (bits x)).neg = _
  have := pack_neg_unpack_packComponents
    (Sign.ofBitVec (@unpackSign Format.binary64 (bits x)))
    (@unpackExponent Format.binary64 (bits x))
    (@unpackMantissa Format.binary64 (bits x)) fun he => absurd he ((isFinite_iff x).1 h)
  rwa [packComponents_unpackSign_unpackExponent_unpackMantissa] at this

theorem isFinite_neg (x : Float) : (-x).isFinite = x.isFinite := by
  cases h : x.isFinite with
  | true => rwa [isFinite_iff, bits_neg h, unpackExponent_packComponents, ← isFinite_iff]
  | false =>
    show (UnpackedFloat.unpack Format.binary64 (UnpackedFloat.pack Format.binary64
      (UnpackedFloat.unpack Format.binary64 (bits x)).neg)).isFinite = false
    change (UnpackedFloat.unpack Format.binary64 (bits x)).isFinite = false at h
    cases hx : UnpackedFloat.unpack Format.binary64 (bits x) with
    | notANumber => rfl
    | infinity s => cases s <;> rfl
    | zero s => rw [hx] at h; cases h
    | finite s m e hm => rw [hx] at h; cases h

theorem signBit_neg {x : Float} (h : x.isFinite = true) : signBit (-x) = !signBit x := by
  rw [signBit_eq, signBit_eq, bits_neg h, unpackSign_packComponents]
  obtain hs | hs := BitVec.eq_zero_or_eq_one (@unpackSign Format.binary64 (bits x)) <;>
    rw [hs] <;> rfl

theorem exponentBits_neg {x : Float} (h : x.isFinite = true) :
    exponentBits (-x) = exponentBits x := by
  rw [exponentBits_eq, exponentBits_eq, bits_neg h, unpackExponent_packComponents]

theorem fractionBits_neg {x : Float} (h : x.isFinite = true) :
    fractionBits (-x) = fractionBits x := by
  rw [fractionBits_eq, fractionBits_eq, bits_neg h, unpackMantissa_packComponents]

end Binary64

open Binary64

def Decimal.neg (d : Decimal) : Decimal := { d with negative := !d.negative }

theorem Decimal.toRat_neg (d : Decimal) : d.neg.toRat = -d.toRat := by
  unfold neg toRat
  cases d.negative <;> simp

theorem Decimal.negative_shortest (x : Float) : (shortest x).negative = signBit x := by
  unfold shortest
  dsimp only
  split <;> rfl

theorem Decimal.shortest_congr {x y : Float} (hm : significand x = significand y)
    (he : Binary64.exponent x = Binary64.exponent y) :
    shortest x = { shortest y with negative := signBit x } := by
  unfold shortest
  rw [hm, he]
  dsimp only
  split <;> rfl

theorem Decimal.shortest_neg {x : Float} (h : x.isFinite = true) :
    shortest (-x) = (shortest x).neg := by
  have hsignificand : significand (-x) = significand x := by
    rw [significand, significand, exponentBits_neg h, fractionBits_neg h]
  have hexponent : Binary64.exponent (-x) = Binary64.exponent x := by
    rw [Binary64.exponent, Binary64.exponent, exponentBits_neg h]
  rw [shortest_congr hsignificand hexponent, neg, negative_shortest, signBit_neg h]

theorem Exact.ofFloat_neg (x : Float) : Exact.ofFloat (-x) = -Exact.ofFloat x := by
  cases h : x.isFinite with
  | true =>
    rw [ofFloat_of_isFinite h, ofFloat_of_isFinite ((isFinite_neg x).trans h),
      Decimal.shortest_neg h, Decimal.toRat_neg]
  | false =>
    rw [ofFloat_of_not_isFinite h, ofFloat_of_not_isFinite ((isFinite_neg x).trans h), neg_zero]

theorem Exact.ofFloat_zero : Exact.ofFloat 0 = 0 := by decide +kernel

theorem Exact.ofFloat_one : Exact.ofFloat 1 = 1 := by decide +kernel

end LinProg
