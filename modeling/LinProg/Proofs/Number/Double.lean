import LinProg.Proofs.Number.Denoting
import LinProg.Proofs.Number.Rounding

/-!
# Integers among doubles

Rounding a double to an integer is exact: an integer below `2 ^ 53` is written down without loss
(`nearest_integer`).  So a search may take doubles for the rationals that they denote.
-/

namespace LinProg

namespace Binary64

theorem divUp_eq {m d : Nat} (hd : 0 < d) : (divUp m d : Int) = ⌈(m : Rat) / d⌉ := by
  have hpos : (0 : Rat) < d := Nat.cast_pos.2 hd
  rw [eq_comm, Int.ceil_eq_iff, lt_div_iff₀ hpos, div_le_iff₀ hpos]
  have hdiv := Nat.div_add_mod (m + (d - 1)) d
  have hmod := Nat.mod_lt (m + (d - 1)) hd
  unfold divUp
  generalize (m + (d - 1)) / d = q at hdiv ⊢
  generalize (m + (d - 1)) % d = r at hdiv hmod
  have hlow : q * d < m + d := by
    rw [mul_comm]
    omega
  have hhigh : m ≤ q * d := by
    rw [mul_comm]
    omega
  constructor
  · have : ((q * d : Nat) : Rat) < ((m + d : Nat) : Rat) := by exact_mod_cast hlow
    push_cast at this ⊢
    linarith
  · push_cast
    exact_mod_cast hhigh

theorem divDown_eq (m d : Nat) : (divDown m d : Int) = ⌊(m : Rat) / d⌋ := by
  rw [Rat.floor_natCast_div_natCast]
  rfl

theorem divDown_le {m d : Nat} (hm : m < 2 ^ 53) (hd : 2 ≤ d) : divDown m d ≤ 2 ^ 52 := by
  refine Nat.le_of_lt_succ ((Nat.div_lt_iff_lt_mul (by omega)).2 ?_)
  rw [Nat.succ_mul]
  omega

theorem divUp_le {m d : Nat} (hm : m < 2 ^ 53) (hd : 2 ≤ d) : divUp m d ≤ 2 ^ 52 := by
  refine Nat.le_of_lt_succ ((Nat.div_lt_iff_lt_mul (by omega)).2 ?_)
  rw [Nat.succ_mul]
  omega

/-- Rounding the magnitude to an integer keeps the sign and loses nothing else. -/
theorem wholeBy_spec {divide : Nat → Nat → Nat} {round : Rat → Int}
    (hdivide : ∀ m d : Nat, 0 < d → (divide m d : Int) = round ((m : Rat) / d))
    (hle : ∀ m d : Nat, m < 2 ^ 53 → 2 ≤ d → divide m d ≤ 2 ^ 52)
    (hround : ∀ k : Nat, round k = k) {x : Float} (hfinite : x.isFinite = true) :
    (wholeBy divide x).isFinite = true ∧
      toRat (wholeBy divide x) = signed (signBit x) (round (magnitude x)) := by
  by_cases hneg : exponent x < 0
  · have hwhole : wholeBy divide x =
        nearest (signBit x) (divide (significand x) (twoPow (-exponent x).toNat)) 1 := by
      rw [wholeBy, hfinite, decide_eq_true hneg, Bool.true_and, if_pos rfl]
    have htwo : 2 ≤ twoPow (-exponent x).toNat := by
      rw [twoPow_eq]
      exact Nat.le_self_pow (by omega) 2
    have hmagnitude : magnitude x = (significand x : Rat) / (twoPow (-exponent x).toNat : Nat) := by
      have hexponent : exponent x = -((-exponent x).toNat : Int) := by omega
      rw [magnitude, twoPow_eq, Nat.cast_pow, Nat.cast_ofNat, div_eq_mul_inv, ← zpow_natCast,
        ← zpow_neg, ← hexponent]
    obtain ⟨hnearest, hvalue⟩ := nearest_integer (signBit x) (hle _ _ (significand_lt x) htwo)
    rw [hwhole]
    refine ⟨hnearest, ?_⟩
    rw [hvalue, hmagnitude, ← hdivide _ _ (by omega), Int.cast_natCast]
  · have hwhole : wholeBy divide x = x := by
      rw [wholeBy, decide_eq_false hneg, Bool.and_false, if_neg Bool.false_ne_true]
    obtain ⟨j, hj⟩ := Int.eq_ofNat_of_zero_le (Int.not_lt.1 hneg)
    have hmagnitude : magnitude x = ((significand x * 2 ^ j : Nat) : Rat) := by
      rw [magnitude, hj, zpow_natCast, Nat.cast_mul, Nat.cast_pow, Nat.cast_ofNat]
    rw [hwhole]
    refine ⟨hfinite, ?_⟩
    rw [toRat_of_isFinite hfinite, hmagnitude, hround, Int.cast_natCast]

theorem whole_down {x : Float} (hfinite : x.isFinite = true) :
    (wholeBy divDown x).isFinite = true ∧
      toRat (wholeBy divDown x) = signed (signBit x) ⌊magnitude x⌋ :=
  wholeBy_spec (fun m d _ => divDown_eq m d) (fun _ _ => divDown_le) Int.floor_natCast hfinite

theorem whole_up {x : Float} (hfinite : x.isFinite = true) :
    (wholeBy divUp x).isFinite = true ∧
      toRat (wholeBy divUp x) = signed (signBit x) ⌈magnitude x⌉ :=
  wholeBy_spec (fun _ _ => divUp_eq) (fun _ _ => divUp_le) Int.ceil_natCast hfinite

theorem floor_spec {x : Float} (hfinite : x.isFinite = true) :
    (floor x).isFinite = true ∧ toRat (floor x) = ⌊toRat x⌋ := by
  rw [toRat_of_isFinite hfinite, floor]
  cases hsign : signBit x with
  | false =>
    have h := whole_down hfinite
    rw [hsign] at h
    exact h
  | true =>
    have h := whole_up hfinite
    rw [hsign] at h
    refine ⟨h.1, h.2.trans ?_⟩
    simp only [signed, if_true, Int.floor_neg, Int.cast_neg]

theorem ceil_spec {x : Float} (hfinite : x.isFinite = true) :
    (ceil x).isFinite = true ∧ toRat (ceil x) = ⌈toRat x⌉ := by
  rw [toRat_of_isFinite hfinite, ceil]
  cases hsign : signBit x with
  | false =>
    have h := whole_up hfinite
    rw [hsign] at h
    exact h
  | true =>
    have h := whole_down hfinite
    rw [hsign] at h
    refine ⟨h.1, h.2.trans ?_⟩
    simp only [signed, if_true, Int.ceil_neg, Int.cast_neg]

theorem isIntegral_iff {x : Float} (hx : x.isFinite = true) :
    isIntegral x = true ↔ ∃ k : Int, toRat x = k := by
  obtain ⟨hfloor, hdown⟩ := floor_spec hx
  obtain ⟨hceil, hup⟩ := ceil_spec hx
  rw [isIntegral, beq_iff hfloor hceil, hdown, hup, Int.cast_inj]
  constructor
  · intro h
    exact ⟨⌊toRat x⌋, le_antisymm (h ▸ Int.le_ceil _) (Int.floor_le _)⟩
  · rintro ⟨k, hk⟩
    rw [hk, Int.floor_intCast, Int.ceil_intCast]

end Binary64

/-- Finite doubles denote rationals. -/
instance : Denoting Float where
  toRat := Binary64.toRat
  IsNumber x := x.isFinite = true
  isNumber_zero := Binary64.isFinite_zero
  isNumber_one := Binary64.isFinite_one
  toRat_zero := Binary64.toRat_zero
  toRat_one := Binary64.toRat_one
  toRat_of_isZero {x} h := by
    cases hx : x.isFinite with
    | false => exact Binary64.toRat_of_not_isFinite hx
    | true => exact ((Binary64.beq_iff hx Binary64.isFinite_zero).1 h).trans Binary64.toRat_zero
  toRat_of_isOne h :=
    ((Binary64.beq_iff (Binary64.isFinite_of_beq_one h) Binary64.isFinite_one).1 h).trans
      Binary64.toRat_one
  toRat_nonneg {x} h := by
    cases hx : x.isFinite with
    | false => exact (Binary64.toRat_of_not_isFinite hx).ge
    | true =>
      have h : ¬x < 0 := of_decide_eq_false h
      rw [Binary64.lt_iff hx Binary64.isFinite_zero, Binary64.toRat_zero] at h
      exact le_of_not_gt h
  less_iff hx hy := decide_eq_true_iff.trans (Binary64.lt_iff hx hy)
  isIntegral_iff := Binary64.isIntegral_iff
  toRat_floor hx := (Binary64.floor_spec hx).2
  toRat_ceil hx := (Binary64.ceil_spec hx).2

instance : DecidablePred (Denoting.IsNumber : Float → Prop) :=
  fun x => inferInstanceAs (Decidable (x.isFinite = true))

end LinProg
