import LinProg.Proofs.Number.Shortest

/-!
# Doubles embed into the rationals

Read as the numbers that their decimal texts denote, doubles keep zero, sign and order, and each one
is the double nearest to its number.  All of this comes from the decimals rounding to their doubles
(`roundsTo_shortest`): what rounds to a smaller double is smaller, and what rounds to a double is
rounded to it.
-/

namespace LinProg

open Binary64

/-! ## Order -/

namespace Decimal

theorem magnitude_shortest_eq_zero_iff {x : Float} (hx : x.isFinite = true) :
    (shortest x).magnitude = 0 ↔ significand x = 0 :=
  (magnitude_eq_zero_iff _).trans (digits_shortest_eq_zero_iff hx)

theorem roundsTo_shortest {x : Float} (hx : x.isFinite = true) :
    RoundsTo (significand x) (Binary64.exponent x) (shortest x).magnitude := by
  by_cases hm : significand x = 0
  · have hself := roundsTo_self 0 (Binary64.exponent x)
    rw [Nat.cast_zero, zero_mul] at hself
    rwa [(magnitude_shortest_eq_zero_iff hx).2 hm, hm]
  · exact (shortest_spec hx hm).1

/-- Without their signs, doubles are in the order of their decimals. -/
theorem magnitude_shortest_lt_iff {x y : Float} (hx : x.isFinite = true) (hy : y.isFinite = true) :
    (shortest x).magnitude < (shortest y).magnitude ↔
      Binary64.magnitude x < Binary64.magnitude y := by
  have hrounds := roundsTo_shortest hx
  have hrounds' := roundsTo_shortest hy
  constructor
  · intro h
    rcases lt_trichotomy (Binary64.magnitude x) (Binary64.magnitude y) with hlt | heq | hgt
    · exact hlt
    · obtain ⟨hm, he⟩ := (isLegal x).eq_of_value_eq (isLegal y) heq
      rw [shortest_congr hm he] at h
      exact absurd h (lt_irrefl _)
    · exact absurd h (hrounds'.lt hrounds (isLegal y) (isLegal x) hgt).not_gt
  · exact hrounds.lt hrounds' (isLegal x) (isLegal y)

end Decimal

theorem neg_lt_iff_of_nonneg {a b : Rat} (ha : 0 ≤ a) (hb : 0 ≤ b) :
    -a < b ↔ ¬(a = 0 ∧ b = 0) := by
  constructor
  · rintro h ⟨rfl, rfl⟩
    exact lt_irrefl _ h
  · intro h
    by_contra hle
    exact h ⟨by linarith, by linarith⟩

namespace Exact

theorem ofFloat_lt_iff {x y : Float} (hx : x.isFinite = true) (hy : y.isFinite = true) :
    ofFloat x < ofFloat y ↔ x < y := by
  have hnonneg (z : Float) := Binary64.magnitude_nonneg z
  have hnonneg' (z : Float) := (Decimal.shortest z).magnitude_nonneg
  rw [Binary64.lt_iff hx hy, toRat_of_isFinite hx, toRat_of_isFinite hy, ofFloat_eq_signed hx,
    ofFloat_eq_signed hy]
  cases signBit x <;> cases signBit y
  · exact Decimal.magnitude_shortest_lt_iff hx hy
  · exact iff_of_false (not_lt.2 ((neg_nonpos.2 (hnonneg' y)).trans (hnonneg' x)))
      (not_lt.2 ((neg_nonpos.2 (hnonneg y)).trans (hnonneg x)))
  · show -(Decimal.shortest x).magnitude < (Decimal.shortest y).magnitude ↔
      -Binary64.magnitude x < Binary64.magnitude y
    rw [neg_lt_iff_of_nonneg (hnonneg' x) (hnonneg' y),
      neg_lt_iff_of_nonneg (hnonneg x) (hnonneg y), Decimal.magnitude_shortest_eq_zero_iff hx,
      Decimal.magnitude_shortest_eq_zero_iff hy, Binary64.magnitude_eq_zero_iff,
      Binary64.magnitude_eq_zero_iff]
  · exact neg_lt_neg_iff.trans ((Decimal.magnitude_shortest_lt_iff hy hx).trans neg_lt_neg_iff.symm)

/-! ## Back to doubles -/

theorem toFloat_eq_iff {q : Rat} (hq : q ≠ 0) {x : Float} (hx : x.isFinite = true) :
    toFloat q = x ↔
      signBit x = decide (q < 0) ∧ RoundsTo (significand x) (Binary64.exponent x) |q| := by
  rw [toFloat, nearest_ratio_eq_iff _ hq hx, decide_eq_decide.2 Rat.num_neg]

theorem toFloat_ofFloat {x : Float} (hx : x.isFinite = true) :
    toFloat (ofFloat x) = if x == 0 then 0 else x := by
  have hzero : (x == 0) = true ↔ significand x = 0 := by
    rw [Binary64.beq_iff hx isFinite_zero, toRat_zero, toRat_eq_zero_iff hx]
  by_cases hm : significand x = 0
  · rw [(ofFloat_eq_zero_iff hx).2 hm, if_pos (hzero.2 hm)]
    exact nearest_zero false 1
  · have hnonneg := (Decimal.shortest x).magnitude_nonneg
    have hpos : 0 < (Decimal.shortest x).magnitude :=
      lt_of_le_of_ne hnonneg (Ne.symm (mt (Decimal.magnitude_shortest_eq_zero_iff hx).1 hm))
    rw [if_neg (mt hzero.1 hm), toFloat_eq_iff (mt (ofFloat_eq_zero_iff hx).1 hm) hx,
      ofFloat_eq_signed hx, abs_signed _ hnonneg]
    refine ⟨?_, Decimal.roundsTo_shortest hx⟩
    rw [Bool.eq_iff_iff, decide_eq_true_iff, signed_lt_zero_iff _ hpos]

/-! ## Faithful coefficients -/

/-- The text of a finite double is a shortest decimal that reads back as the double, and rationals
are rounded to nearest.  So reading the text exactly keeps zero, sign and order, and loses no
double. -/
theorem ofFloat_faithful {v w : Float} (hv : v.isFinite = true) (hw : w.isFinite = true) :
    (∃ d : Decimal, d.IsShortestOf v ∧ Binary64.chars v = d.chars) ∧
      (∀ q ≠ 0, toFloat q = v ↔
        signBit v = decide (q < 0) ∧ RoundsTo (significand v) (Binary64.exponent v) |q|) ∧
      (∀ q, Decimal.Denotes (Binary64.chars v) q ↔ q = ofFloat v) ∧
      (ofFloat v = 0 ↔ v = 0 ∨ v = -0) ∧
      ofFloat (-v) = -ofFloat v ∧
      (v < w ↔ ofFloat v < ofFloat w) ∧
      toFloat (ofFloat v) = if v == 0 then 0 else v := by
  refine ⟨⟨_, Decimal.isShortestOf_shortest hv, chars_of_isFinite hv⟩,
    fun q hq => toFloat_eq_iff hq hv, fun q => ⟨fun h => (Decimal.read_of_denotes h).symm, ?_⟩, ?_,
    ofFloat_neg v, (ofFloat_lt_iff hv hw).symm, toFloat_ofFloat hv⟩
  · rintro rfl
    rw [ofFloat_of_isFinite hv, chars_of_isFinite hv]
    exact Decimal.denotes_chars _
  · rw [ofFloat_eq_zero_iff hv, significand_eq_zero_iff]

/-- No double is one twentieth, but what is written so is read so, with its sign and its zeros. -/
theorem twentieth_faithful :
    Binary64.chars (-0.05) = ['-', '0', '.', '0', '5'] ∧
      (∀ q, Decimal.Denotes ['-', '0', '.', '0', '5'] q ↔ q = -1 / 20) ∧
      ofFloat (-(-0.05)) = 1 / 20 ∧ (-1 / 20 : Rat) < ofFloat 0.1 ∧ toFloat (-1 / 20) = -0.05 := by
  have htext : Binary64.chars (-0.05) = ['-', '0', '.', '0', '5'] := by decide +kernel
  have hvalue : ofFloat (-0.05) = -1 / 20 := by decide +kernel
  obtain ⟨-, -, hdenotes, -, hneg, horder, hback⟩ :=
    @ofFloat_faithful (-0.05) 0.1 (by decide +kernel) (by decide +kernel)
  rw [htext, hvalue] at hdenotes
  rw [hvalue] at hneg horder hback
  refine ⟨htext, hdenotes, hneg.trans (by norm_num), horder.1 (by decide +kernel),
    hback.trans (if_neg (by decide +kernel))⟩

end Exact

end LinProg
