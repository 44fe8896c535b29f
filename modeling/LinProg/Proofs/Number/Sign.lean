import LinProg.Number.Instances
import LinProg.Proofs.Number.Exact
import Mathlib

/-!
# Signs of doubles

Rounding may turn a number into zero or infinity but never into one of the other sign.  `HasSign`
says that of a double; it goes through products, quotients and roundings as long as they are
numbers.

Mathlib is imported as a whole because none of its modules passes on the lemmas about packed and
unpacked doubles, such as `unpackSign_packComponents`.
-/

namespace LinProg.Binary64

open Float.Model Float.Model.UnpackedFloat

/-! ## Unpacked doubles -/

/-- A number of the sign; zero and infinity have one too. -/
def Signed (s : Sign) : UnpackedFloat → Prop
  | .infinity s' => s' = s
  | .notANumber => False
  | .zero s' => s' = s
  | .finite s' .. => s' = s

/-- What is unpacked has the sign of its bits, unless the bits are no number. -/
theorem signed_unpack {b : BitVec 64}
    (h : @unpackExponent Format.binary64 b = (-1#_) →
      @unpackMantissa Format.binary64 b = 0#_) :
    Signed (Sign.ofBitVec (@unpackSign Format.binary64 b))
      (UnpackedFloat.unpack Format.binary64 b) := by
  unfold UnpackedFloat.unpack
  dsimp only
  split
  next he => rw [if_pos (h he)]; rfl
  next =>
    split
    · split <;> rfl
    · rfl

theorem signed_unpack_packComponents (s : Sign) (e : BitVec 11) (m : BitVec 52)
    (h : e = (-1#_) → m = 0#_) :
    Signed s (UnpackedFloat.unpack Format.binary64 (packComponents Format.binary64 s e m)) := by
  have := signed_unpack (b := packComponents Format.binary64 s e m) (by simpa using h)
  rwa [unpackSign_packComponents, Sign.ofBitVec_toBitVec] at this

theorem signed_unpack_pack {s : Sign} {u : UnpackedFloat} (h : Signed s u) :
    Signed s (UnpackedFloat.unpack Format.binary64 (UnpackedFloat.pack Format.binary64 u)) := by
  cases u with
  | notANumber => exact h.elim
  | infinity s' =>
    obtain rfl := h
    exact signed_unpack_packComponents _ _ _ fun _ => rfl
  | zero s' =>
    obtain rfl := h
    exact signed_unpack_packComponents _ _ _ fun _ => rfl
  | finite s' m e hm =>
    obtain rfl := h
    unfold UnpackedFloat.pack
    dsimp only
    split
    next => exact signed_unpack_packComponents _ _ _ fun _ => rfl
    next hb =>
      split
      next =>
        refine signed_unpack_packComponents _ _ _ fun he => absurd (congrArg BitVec.toNat he) ?_
        simp only [BitVec.toNat_ofNat, BitVec.neg_one_eq_allOnes, BitVec.toNat_allOnes]
        rw [Nat.mod_eq_of_lt (by omega)]
        omega
      next => exact signed_unpack_packComponents _ _ _ fun he => absurd he (by decide)

theorem signed_roundWithAccuracy (s : Sign) (m : Nat) (e : Int) (a : Accuracy) :
    Signed s (roundWithAccuracy Format.binary64 s m e a) := by
  unfold roundWithAccuracy
  dsimp only
  split <;> rfl

theorem signed_mul {s s' : Sign} {u v : UnpackedFloat} (hu : Signed s u) (hv : Signed s' v) :
    UnpackedFloat.mul Format.binary64 u v = .notANumber ∨
      Signed (s * s') (UnpackedFloat.mul Format.binary64 u v) := by
  cases u <;> cases v <;> first
    | exact hu.elim
    | exact hv.elim
    | (obtain rfl := hu; obtain rfl := hv
       first
        | exact .inl rfl
        | exact .inr rfl
        | exact .inr (signed_roundWithAccuracy ..))

theorem signed_div {s s' : Sign} {u v : UnpackedFloat} (hu : Signed s u) (hv : Signed s' v) :
    UnpackedFloat.div Format.binary64 u v = .notANumber ∨
      Signed (s / s') (UnpackedFloat.div Format.binary64 u v) := by
  cases u <;> cases v <;> first
    | exact hu.elim
    | exact hv.elim
    | (obtain rfl := hu; obtain rfl := hv
       first
        | exact .inl rfl
        | exact .inr rfl
        | exact .inr (signed_roundWithAccuracy ..))

/-! ## The fields of a double -/

def bits (x : Float) : BitVec 64 := x.toBits.toBitVec

theorem fractionBits_eq (x : Float) :
    fractionBits x = (@unpackMantissa Format.binary64 (bits x)).toNat := by
  simp [fractionBits, bits, unpackMantissa, twoPow, BitVec.extractLsb_toNat]

theorem exponentBits_eq (x : Float) :
    exponentBits x = (@unpackExponent Format.binary64 (bits x)).toNat := by
  simp [exponentBits, bits, unpackExponent, twoPow, BitVec.extractLsb_toNat,
    Nat.shiftRight_eq_div_pow]

theorem signBit_eq (x : Float) :
    signBit x = decide (@unpackSign Format.binary64 (bits x) = 1#1) := by
  have := (bits x).isLt
  rw [signBit, decide_eq_decide, ← BitVec.toNat_inj]
  simp [bits, unpackSign, twoPow, BitVec.extractLsb_toNat, Nat.shiftRight_eq_div_pow] at this ⊢
  omega

/-! ## Signs -/

def HasSign (s : Sign) (x : Float) : Prop := Signed s x.toModel.unpack

theorem HasSign.unpackSign {s : Sign} {x : Float} (h : HasSign s x) :
    Sign.ofBitVec (@unpackSign Format.binary64 (bits x)) = s := by
  unfold HasSign Float.Model.unpack UnpackedFloat.unpack at h
  dsimp only at h
  split at h
  · split at h
    · exact h
    · exact h.elim
  · split at h
    · split at h <;> exact h
    · exact h

theorem HasSign.signBit {s : Sign} {x : Float} (h : HasSign s x) :
    s = if signBit x then .negative else .positive := by
  rw [← h.unpackSign, signBit_eq]
  generalize @UnpackedFloat.unpackSign Format.binary64 (bits x) = b
  obtain rfl | rfl := BitVec.eq_zero_or_eq_one b <;> rfl

theorem isFinite_mul (x y : Float) : (x * y).isFinite =
    (UnpackedFloat.unpack Format.binary64 (UnpackedFloat.pack Format.binary64
      (UnpackedFloat.mul Format.binary64 x.toModel.unpack y.toModel.unpack))).isFinite := rfl

theorem HasSign.mul {s s' : Sign} {x y : Float} (hx : HasSign s x) (hy : HasSign s' y)
    (hfinite : (x * y).isFinite = true) : HasSign (s * s') (x * y) := by
  rcases signed_mul hx hy with hnan | hsigned
  · rw [isFinite_mul, hnan] at hfinite
    exact absurd hfinite (by decide)
  · exact signed_unpack_pack hsigned

theorem HasSign.div {s s' : Sign} {x y : Float} (hx : HasSign s x) {m : Nat} {e : Int}
    {hm : 0 < m} (hy : y.toModel.unpack = .finite s' m e hm) : HasSign (s / s') (x / y) := by
  have hys : Signed s' y.toModel.unpack := hy ▸ rfl
  refine signed_unpack_pack ((signed_div hx hys).resolve_left fun hnan => ?_)
  rw [hy] at hnan
  unfold HasSign at hx
  cases hu : x.toModel.unpack with
  | notANumber => exact (hu ▸ hx : Signed s .notANumber)
  | infinity => rw [hu] at hnan; cases hnan
  | zero => rw [hu] at hnan; cases hnan
  | finite =>
    rw [hu] at hnan
    have := signed_roundWithAccuracy
    simp only [UnpackedFloat.div, roundWithAccuracy] at hnan
    split at hnan <;> cases hnan

theorem twoPow_eq (n : Nat) : twoPow n = 2 ^ n := rfl

theorem magnitudeBits_le (num den : Nat) : magnitudeBits num den ≤ infinityBits :=
  Nat.min_le_right _ _

theorem hasSign_ofBits (negative : Bool) {magnitude : Nat} (h : magnitude ≤ infinityBits) :
    HasSign (if negative then .negative else .positive)
      (Float.ofBits (UInt64.ofNat
        (if negative then twoPow 63 + magnitude else magnitude))) := by
  generalize hw : (if negative then twoPow 63 + magnitude else magnitude) = word
  have hword : word = negative.toNat * 2 ^ 63 + magnitude := by
    rw [← hw, twoPow_eq]
    cases negative <;> simp
  have hnegative : negative.toNat ≤ 1 := Bool.toNat_le negative
  have hmagnitude : magnitude ≤ 2047 * 2 ^ 52 := h
  have hbits : (UInt64.ofNat word).toBitVec.toNat = word := by
    simp
    omega
  have hsigned := signed_unpack (b := (UInt64.ofNat word).toBitVec) fun he => by
    -- only infinity has the largest exponent
    have he := congrArg BitVec.toNat he
    apply BitVec.eq_of_toNat_eq
    simp only [unpackExponent, unpackMantissa, BitVec.toNat_cast, BitVec.extractLsb_toNat, hbits,
      Nat.shiftRight_eq_div_pow, BitVec.neg_one_eq_allOnes, BitVec.toNat_allOnes] at he ⊢
    simp at he ⊢
    omega
  apply signed_unpack_pack
  have hsign : Sign.ofBitVec (@unpackSign Format.binary64 (UInt64.ofNat word).toBitVec) =
      if negative then .negative else .positive := by
    have : (@unpackSign Format.binary64 (UInt64.ofNat word).toBitVec).toNat =
        negative.toNat := by
      simp only [unpackSign, BitVec.toNat_cast, BitVec.extractLsb_toNat, hbits,
        Nat.shiftRight_eq_div_pow]
      simp
      omega
    cases negative
    · rw [BitVec.eq_of_toNat_eq (y := 0#1) this]
      rfl
    · rw [BitVec.eq_of_toNat_eq (y := 1#1) this]
      rfl
  exact hsign ▸ hsigned

theorem hasSign_nearest (negative : Bool) (num den : Nat) :
    HasSign (if negative then .negative else .positive) (nearest negative num den) := by
  apply hasSign_ofBits negative
  split
  · exact Nat.zero_le _
  · exact magnitudeBits_le num den

theorem HasSign.roundHalfAway {s : Sign} {x : Float} (h : HasSign s x) :
    HasSign s (roundHalfAway x) := by
  unfold Binary64.roundHalfAway wholeBy
  split
  · have := hasSign_nearest (Binary64.signBit x)
      (divHalfUp (significand x) (twoPow (-exponent x).toNat)) 1
    rwa [← h.signBit] at this
  · exact h

/-! ## Scales -/

/-- A number that is one at least, infinity included. -/
def AtLeastOne (u : UnpackedFloat) : Prop :=
  u = .infinity .positive ∨
    ∃ m e h, u = .finite .positive m e h ∧ 2 ^ 52 ≤ m ∧ m < 2 ^ 53 ∧ -52 ≤ e

theorem mantissa_shiftRight (em : ExtendedMantissa) (k : Nat) :
    (em >>> k).mantissa = em.mantissa / 2 ^ k := by
  show (k.repeat ExtendedMantissa.shiftRightOne em).mantissa = _
  induction k with
  | zero => simp [Nat.repeat]
  | succ k ih =>
    rw [Nat.repeat, ExtendedMantissa.shiftRightOne, ih, Nat.div_div_eq_div_mul, pow_succ]

theorem roundedMantissa_bounds (em : ExtendedMantissa) :
    em.mantissa ≤ em.roundedMantissa ∧ em.roundedMantissa ≤ em.mantissa + 1 := by
  obtain ⟨m, r, s⟩ := em
  cases r <;> cases s <;>
    simp only [ExtendedMantissa.roundedMantissa, ExtendedMantissa.accuracy,
      Accuracy.roundToNearestEven] <;> omega

/-- Shifting to the target exponent leaves a full mantissa, unless the exponent is the smallest. -/
theorem shiftToTargetExponent_spec {m : Nat} {e : Int} {a : Accuracy} (hm : 2 ^ 52 ≤ m)
    (he : -1074 ≤ e) :
    2 ^ 52 ≤ (shiftToTargetExponent Format.binary64 m e a).1.mantissa ∧
      (shiftToTargetExponent Format.binary64 m e a).1.mantissa < 2 ^ 53 ∧
      (shiftToTargetExponent Format.binary64 m e a).2 = e + (m.log2 - 52 : Nat) := by
  have hlog : 52 ≤ m.log2 := (Nat.le_log2 (by omega)).2 hm
  have hshift : (Format.binary64.targetExponent (totalExponent m e) - e).toNat = m.log2 - 52 := by
    have h1 : ((Format.binary64.mantissaBits : Nat) : Int) = 53 := rfl
    have h2 : Format.binary64.minExponent = -1074 := rfl
    rw [Format.targetExponent, totalExponent, h1, h2]
    omega
  have hmantissa : (ExtendedMantissa.ofMantissaAndAccuracy m a).mantissa = m := by
    rcases a with _ | _ | _ | _ <;> rfl
  have hlow : 2 ^ (52 + (m.log2 - 52)) ≤ m := by
    rw [Nat.add_sub_cancel' hlog]
    exact Nat.log2_self_le (by omega)
  have hhigh : m < 2 ^ (53 + (m.log2 - 52)) := by
    rw [show 53 + (m.log2 - 52) = m.log2 + 1 by omega]
    exact Nat.lt_log2_self
  rw [pow_add] at hlow hhigh
  simp only [shiftToTargetExponent, shiftToExponent, mantissa_shiftRight, hshift, hmantissa]
  exact ⟨(Nat.le_div_iff_mul_le (Nat.two_pow_pos _)).2 hlow,
    (Nat.div_lt_iff_lt_mul (Nat.two_pow_pos _)).2 hhigh, trivial⟩

theorem atLeastOne_roundWithAccuracy {m : Nat} {e : Int} (hm : 2 ^ 104 ≤ m) (he : -104 ≤ e) :
    AtLeastOne (roundWithAccuracy Format.binary64 .positive m e .exact) := by
  have hlog : 104 ≤ m.log2 := (Nat.le_log2 (by omega)).2 hm
  obtain ⟨hlow, -, hexp⟩ :=
    shiftToTargetExponent_spec (m := m) (e := e) (a := .exact) (by omega) (by omega)
  unfold roundWithAccuracy
  generalize shiftToTargetExponent Format.binary64 m e .exact = first at hlow hexp ⊢
  obtain ⟨em, e₁⟩ := first
  have hround : 2 ^ 52 ≤ em.roundedMantissa := hlow.trans (roundedMantissa_bounds em).1
  have he₁ : -52 ≤ e₁ := by
    dsimp only at hexp
    omega
  obtain ⟨hlow', hhigh', hexp'⟩ :=
    shiftToTargetExponent_spec (m := em.roundedMantissa) (e := e₁) (a := .exact) hround (by omega)
  dsimp only
  rw [dif_neg (by omega)]
  exact .inr ⟨_, _, _, rfl, hlow', hhigh', by rw [hexp']; omega⟩

theorem atLeastOne_mul {u v : UnpackedFloat} (hu : AtLeastOne u) (hv : AtLeastOne v) :
    AtLeastOne (UnpackedFloat.mul Format.binary64 u v) := by
  rcases hu with rfl | ⟨m, e, hm, rfl, hlow, -, he⟩
  · rcases hv with rfl | ⟨m', e', hm', rfl, -, -, -⟩ <;> exact .inl rfl
  · rcases hv with rfl | ⟨m', e', hm', rfl, hlow', -, he'⟩
    · exact .inl rfl
    · have hle := Nat.mul_le_mul hlow hlow'
      rw [← pow_add] at hle
      exact atLeastOne_roundWithAccuracy hle (by omega)

theorem atLeastOne_unpack_pack {u : UnpackedFloat} (hu : AtLeastOne u) :
    AtLeastOne (UnpackedFloat.unpack Format.binary64 (UnpackedFloat.pack Format.binary64 u)) := by
  rcases hu with rfl | ⟨m, e, hm, rfl, hlow, hhigh, he⟩
  · exact .inl rfl
  · have hlog : m.log2 = 52 := by
      have := (Nat.le_log2 (by omega)).2 hlow
      have := (Nat.log2_lt (by omega)).2 hhigh
      omega
    have hbias : ((Format.binary64.exponentBias : Nat) : Int) = 1023 := rfl
    have hwidth : ((Format.binary64.mantissaBitsWithoutImplicit : Nat) : Int) = 52 := rfl
    have hbits : Format.binary64.mantissaBits = 53 := rfl
    unfold UnpackedFloat.pack
    simp only [hbias, hwidth, hbits, hlog]
    split
    · exact .inl rfl
    next hb =>
      -- a normal number reads as it was packed
      have hexp : (BitVec.ofNat 11 (e + 1023 + 52).toNat).toNat = (e + 1023 + 52).toNat := by
        rw [BitVec.toNat_ofNat, Nat.mod_eq_of_lt (by omega)]
      have hfirst : BitVec.ofNat 11 (e + 1023 + 52).toNat ≠ -1#_ := by
        intro h
        have := congrArg BitVec.toNat h
        rw [hexp] at this
        simp at this
        omega
      have hzero : BitVec.ofNat 11 (e + 1023 + 52).toNat ≠ 0#_ := by
        intro h
        have := congrArg BitVec.toNat h
        rw [hexp] at this
        simp at this
        omega
      have hmantissa : (1#1 ++ BitVec.ofNat 52 m).toNat = m := by
        rw [BitVec.toNat_append, ← Nat.shiftLeft_add_eq_or_of_lt (BitVec.isLt _),
          BitVec.toNat_ofNat, Nat.shiftLeft_eq]
        simp
        omega
      rw [if_pos trivial]
      unfold UnpackedFloat.unpack
      simp only [unpackMantissa_packComponents, unpackExponent_packComponents,
        unpackSign_packComponents, Sign.ofBitVec_toBitVec, if_neg hfirst, if_neg hzero]
      exact .inr ⟨_, _, _, rfl, by rw [hmantissa]; exact hlow, by rw [hmantissa]; exact hhigh, by
        rw [hexp, hbias, hwidth]; omega⟩

theorem atLeastOne_powerLoop (fuel n : Nat) {r x : Float} (hr : AtLeastOne r.toModel.unpack)
    (hx : AtLeastOne x.toModel.unpack) :
    AtLeastOne (powerLoop fuel n r x).toModel.unpack := by
  have hmul {y z : Float} (hy : AtLeastOne y.toModel.unpack) (hz : AtLeastOne z.toModel.unpack) :
      AtLeastOne (y * z).toModel.unpack := atLeastOne_unpack_pack (atLeastOne_mul hy hz)
  induction fuel generalizing n r x with
  | zero => exact hr
  | succ fuel ih =>
    have hnext : AtLeastOne (if n % 2 = 1 then r * x else r).toModel.unpack := by
      split
      · exact hmul hr hx
      · exact hr
    rw [powerLoop]
    split
    · exact hnext
    · exact ih (n / 2) hnext (hmul hx hx)

/-- A power of ten is positive, if it is finite at all. -/
theorem atLeastOne_powerOfTen (n : Nat) : AtLeastOne (powerOfTen n).toModel.unpack :=
  atLeastOne_powerLoop 31 _ (.inr ⟨2 ^ 52, -52, by decide, rfl, by decide, by decide, by decide⟩)
    (.inr ⟨5629499534213120, -49, by decide, rfl, by decide, by decide, by decide⟩)

/-! ## Rounding -/

theorem lt_iff_compare (x y : Float) :
    x < y ↔ UnpackedFloat.compare x.toModel.unpack y.toModel.unpack = some .lt := by
  show decide ((UnpackedFloat.compare x.toModel.unpack y.toModel.unpack == some .lt) = true) =
    true ↔ _
  rw [decide_eq_true_iff, beq_iff_eq]

theorem beq_iff_compare (x y : Float) :
    (x == y) = true ↔ UnpackedFloat.compare x.toModel.unpack y.toModel.unpack = some .eq := by
  show (UnpackedFloat.compare x.toModel.unpack y.toModel.unpack == some .eq) = true ↔ _
  rw [beq_iff_eq]

theorem HasSign.negative {x : Float} (h : HasSign .negative x) :
    (x < 0 ∨ (x == 0) = true) ∧ ¬0 < x := by
  have hzero : (0 : Float).toModel.unpack = .zero .positive := rfl
  unfold HasSign at h
  rw [lt_iff_compare, lt_iff_compare, beq_iff_compare, hzero]
  cases hx : x.toModel.unpack with
  | notANumber => rw [hx] at h; exact h.elim
  | infinity s => rw [hx] at h; obtain rfl := h; simp [UnpackedFloat.compare]
  | zero s => simp [UnpackedFloat.compare]
  | finite s m e hm => rw [hx] at h; obtain rfl := h; simp [UnpackedFloat.compare]

theorem HasSign.positive {x : Float} (h : HasSign .positive x) :
    (0 < x ∨ (x == 0) = true) ∧ ¬x < 0 := by
  have hzero : (0 : Float).toModel.unpack = .zero .positive := rfl
  unfold HasSign at h
  rw [lt_iff_compare, lt_iff_compare, beq_iff_compare, hzero]
  cases hx : x.toModel.unpack with
  | notANumber => rw [hx] at h; exact h.elim
  | infinity s => rw [hx] at h; obtain rfl := h; simp [UnpackedFloat.compare]
  | zero s => simp [UnpackedFloat.compare]
  | finite s m e hm => rw [hx] at h; obtain rfl := h; simp [UnpackedFloat.compare]

theorem isFinite_mul_infinity (u : UnpackedFloat) :
    (UnpackedFloat.unpack Format.binary64 (UnpackedFloat.pack Format.binary64
      (UnpackedFloat.mul Format.binary64 u (.infinity .positive)))).isFinite = false := by
  have hmul : UnpackedFloat.mul Format.binary64 u (.infinity .positive) = .notANumber ∨
      ∃ s, UnpackedFloat.mul Format.binary64 u (.infinity .positive) = .infinity s := by
    cases u with
    | notANumber => exact .inl rfl
    | infinity s => exact .inr ⟨_, rfl⟩
    | zero s => exact .inl rfl
    | finite s m e hm => exact .inr ⟨_, rfl⟩
  rcases hmul with h | ⟨_ | _, h⟩ <;> rw [h] <;> rfl

/-- Rounding to decimal places gives zero or keeps the sign. -/
theorem HasSign.roundToPlaces {s : Sign} (places : Nat) {x : Float} (h : HasSign s x) :
    Binary64.roundToPlaces places x = 0 ∨ HasSign s (Binary64.roundToPlaces places x) := by
  unfold Binary64.roundToPlaces
  dsimp only
  split
  next hfinite =>
    split
    · exact .inl rfl
    · have hpositive (t : Sign) : t * .positive / .positive = t := by
        cases t <;> rfl
      rcases atLeastOne_powerOfTen places with hscale | ⟨m, e, hm, hscale, -⟩
      · -- a product with infinity is not finite
        rw [isFinite_mul, hscale, isFinite_mul_infinity] at hfinite
        cases hfinite
      · have hsign : HasSign .positive (powerOfTen places) := by
          unfold HasSign
          rw [hscale]
          rfl
        have := (h.mul hsign hfinite).roundHalfAway.div hscale
        rw [hpositive] at this
        exact .inr this
  next => exact .inr h

end LinProg.Binary64

namespace LinProg

open Binary64

theorem Exact.hasSign_toFloat (q : Rat) :
    HasSign (if q < 0 then .negative else .positive) (Exact.toFloat q) := by
  have := hasSign_nearest (decide (q.num < 0)) q.num.natAbs q.den
  simp only [decide_eq_true_eq] at this
  by_cases hq : q < 0
  · rw [if_pos hq]
    rwa [if_pos (Rat.num_neg.2 hq)] at this
  · rw [if_neg hq]
    rwa [if_neg (mt Rat.num_neg.1 hq)] at this

theorem Binary64.not_zero_lt_zero : ¬(0 : Float) < 0 := by
  rw [lt_iff_compare]
  decide

theorem Binary64.zero_beq_zero : ((0 : Float) == 0) = true := by
  rw [beq_iff_compare]
  decide

end LinProg
