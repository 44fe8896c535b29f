import LinProg.Proofs.Number.Fields

/-!
# Rounding to doubles

`RoundsTo m e` are the rationals that round to the double `m · 2 ^ e`: those up to halfway to its
neighbours.  These ranges lie in the order of the doubles (`RoundsTo.lt`), so no rational rounds to
two of them (`RoundsTo.unique`).  `nearest` finds the one that a fraction rounds to, or runs over
(`nearest_spec`); so it keeps what is a double already (`nearest_of_isLegal`).
-/

namespace LinProg

theorem natPow_toNat {b : Nat} (hb : b ≠ 0) (a : Int) :
    ((b ^ a.toNat : Nat) : Rat) = (b : Rat) ^ a * (b ^ (-a).toNat : Nat) := by
  have hb' : (b : Rat) ≠ 0 := Nat.cast_ne_zero.2 hb
  obtain ⟨k, rfl | rfl⟩ := a.eq_nat_or_neg
  · simp
  · simp [hb']

/-! ## Ranges -/

/-- Between two ends, which belong to the range if it is closed. -/
def Within (closed : Bool) (low high q : Rat) : Prop :=
  if closed then low ≤ q ∧ q ≤ high else low < q ∧ q < high

namespace Within

variable {closed closed' : Bool} {low low' high high' p q r : Rat}

theorem le (h : Within closed low high q) : low ≤ q ∧ q ≤ high := by
  cases closed
  · exact ⟨h.1.le, h.2.le⟩
  · exact h

theorem of_lt (hlow : low < q) (hhigh : q < high) : Within closed low high q := by
  cases closed
  · exact ⟨hlow, hhigh⟩
  · exact ⟨hlow.le, hhigh.le⟩

theorem convex (hp : Within closed low high p) (hr : Within closed low high r) (hpq : p ≤ q)
    (hqr : q ≤ r) : Within closed low high q := by
  cases closed
  · exact ⟨hp.1.trans_le hpq, hqr.trans_lt hr.2⟩
  · exact ⟨hp.1.trans hpq, hqr.trans hr.2⟩

theorem mul_iff {c : Rat} (hc : 0 < c) :
    Within closed (low * c) (high * c) (q * c) ↔ Within closed low high q := by
  cases closed
  · exact and_congr (mul_lt_mul_iff_left₀ hc) (mul_lt_mul_iff_left₀ hc)
  · exact and_congr (mul_le_mul_iff_left₀ hc) (mul_le_mul_iff_left₀ hc)

theorem natCast_le {n k : Nat} (h : Within closed (n - 1 / 2) (n + 1 / 2) q) :
    ((k : Rat) ≤ q → k ≤ n) ∧ (q ≤ k → n ≤ k) := by
  obtain ⟨hlow, hhigh⟩ := h.le
  constructor
  · intro hk
    have : (k : Rat) < (n + 1 : Nat) := by
      push_cast
      linarith
    exact Nat.lt_succ_iff.1 (Nat.cast_lt.1 this)
  · intro hk
    have : (n : Rat) < (k + 1 : Nat) := by
      push_cast
      linarith
    exact Nat.lt_succ_iff.1 (Nat.cast_lt.1 this)

/-- Ranges that meet in at most one end have their points in order, unless both hold that end. -/
theorem lt_of_le (h : Within closed low high q) (h' : Within closed' low' high' r)
    (hle : high ≤ low') (hends : high = low' → closed = true → closed' = false) : q < r := by
  refine lt_of_le_of_ne (h.le.2.trans (hle.trans h'.le.1)) fun heq => ?_
  have hhigh : high = low' := le_antisymm hle (by have := h.le.2; have := h'.le.1; linarith)
  cases closed with
  | false => exact absurd h.2 (by have := h'.le.1; linarith)
  | true =>
    obtain rfl := hends hhigh rfl
    exact absurd h'.1 (by have := h.le.2; linarith)

end Within

namespace Binary64

/-! ## The rationals that round to a double -/

structure IsLegal (m : Nat) (e : Int) : Prop where
  lt : m < 2 ^ 53
  least : -1074 ≤ e
  full : -1074 < e → 2 ^ 52 ≤ m

theorem isLegal (x : Float) : IsLegal (significand x) (exponent x) where
  lt := significand_lt x
  least := neg_1074_le_exponent x
  full := significand_full

/-- How far it is halfway to the double below, in units of the last place.  Below a power of two the
next double is half as far away. -/
def halfway (m : Nat) (e : Int) : Rat := if m = 2 ^ 52 ∧ -1074 < e then 1 / 4 else 1 / 2

/-- The rationals that round to `m · 2 ^ e`; a tie goes to the even significand. -/
def RoundsTo (m : Nat) (e : Int) (q : Rat) : Prop :=
  Within (m % 2 = 0) ((m - halfway m e) * 2 ^ e) ((m + 1 / 2) * 2 ^ e) q

theorem halfway_pos (m : Nat) (e : Int) : 0 < halfway m e := by
  unfold halfway
  split <;> norm_num

theorem halfway_le (m : Nat) (e : Int) : halfway m e ≤ 1 / 2 := by
  unfold halfway
  split <;> norm_num

variable {m m' : Nat} {e e' : Int} {q q' : Rat}

theorem roundsTo_self (m : Nat) (e : Int) : RoundsTo m e (m * 2 ^ e) := by
  have hpos : (0 : Rat) < 2 ^ e := zpow_pos (by norm_num) e
  refine (Within.mul_iff hpos).2 (Within.of_lt ?_ ?_)
  · exact sub_lt_self _ (halfway_pos m e)
  · exact lt_add_of_pos_right _ (by norm_num)

theorem IsLegal.lt_cases (h' : IsLegal m' e') (h : IsLegal m e)
    (hlt : (m : Rat) * 2 ^ e < m' * 2 ^ e') : e < e' ∨ e = e' ∧ m < m' := by
  rcases lt_trichotomy e e' with he | rfl | he
  · exact .inl he
  · have hpos : (0 : Rat) < 2 ^ e := zpow_pos (by norm_num) e
    exact .inr ⟨rfl, Nat.cast_lt.1 ((mul_lt_mul_iff_left₀ hpos).1 hlt)⟩
  · have hfull : 2 ^ 52 ≤ m := h.full (by have := h'.least; omega)
    exact absurd hlt (scaled_lt_of_exponent_lt h'.lt hfull he).not_gt

/-- Halfway below a double of larger exponent is beyond all that has the smaller one: what are
halves of a step there are quarters of a step here. -/
theorem IsLegal.le_of_exponent_lt (h : IsLegal m e) (hleast : -1074 ≤ e') (he : e' < e) :
    (2 ^ 53 - 1 / 2) * 2 ^ e' ≤ (m - halfway m e) * 2 ^ e := by
  have hpos : (0 : Rat) < 2 ^ e' := zpow_pos (by norm_num) e'
  have hdouble : (2 : Rat) * 2 ^ e' ≤ 2 ^ e := by
    rw [mul_comm, ← zpow_add_one₀ (by norm_num)]
    exact zpow_le_zpow_right₀ (by norm_num) (by omega)
  have hm : (2 : Rat) ^ 52 - 1 / 4 ≤ m - halfway m e := by
    unfold halfway
    split
    next hpower => rw [hpower.1]; norm_num
    next hpower =>
      have hfull := h.full (by omega)
      have hne : m ≠ 2 ^ 52 := fun heq => hpower ⟨heq, by omega⟩
      have : (2 : Rat) ^ 52 + 1 ≤ m := by exact_mod_cast (show 2 ^ 52 + 1 ≤ m by omega)
      linarith
  calc ((2 : Rat) ^ 53 - 1 / 2) * 2 ^ e' = (2 ^ 52 - 1 / 4) * (2 * 2 ^ e') := by ring
    _ ≤ (m - halfway m e) * 2 ^ e := mul_le_mul hm hdouble (by positivity) (by linarith)

theorem RoundsTo.lt (hq : RoundsTo m e q) (hq' : RoundsTo m' e' q') (h : IsLegal m e)
    (h' : IsLegal m' e') (hlt : (m : Rat) * 2 ^ e < m' * 2 ^ e') : q < q' := by
  have hpos : (0 : Rat) < 2 ^ e := zpow_pos (by norm_num) e
  rcases h'.lt_cases h hlt with he | ⟨rfl, hm⟩
  · have hgap := h'.le_of_exponent_lt h.least he
    refine hq.lt_of_le hq' ?_ fun hends heven => ?_
    · have hm : (m : Rat) + 1 ≤ 2 ^ 53 := by exact_mod_cast h.lt
      exact (mul_le_mul_of_nonneg_right (by linarith) hpos.le).trans hgap
    · -- only the largest significand, which is odd, reaches up to there
      rw [← hends, mul_le_mul_iff_left₀ hpos] at hgap
      have hlargest : (2 : Rat) ^ 53 ≤ m + 1 := by linarith
      have : 2 ^ 53 ≤ m + 1 := by exact_mod_cast hlargest
      have := h.lt
      have := of_decide_eq_true heven
      omega
  · have hm : (m : Rat) + 1 ≤ m' := by exact_mod_cast hm
    have hhalf := halfway_le m' e
    refine hq.lt_of_le hq' (mul_le_mul_of_nonneg_right (by linarith) hpos.le) fun hends heven => ?_
    -- the next significand has the other parity
    have hsame := mul_right_cancel₀ hpos.ne' hends
    have hnext : (m' : Rat) = m + 1 := by linarith
    have : m' = m + 1 := by exact_mod_cast hnext
    have := of_decide_eq_true heven
    exact decide_eq_false (by omega)

theorem IsLegal.eq_of_value_eq (h : IsLegal m e) (h' : IsLegal m' e')
    (heq : (m : Rat) * 2 ^ e = m' * 2 ^ e') : m = m' ∧ e = e' := by
  rcases lt_trichotomy e e' with he | rfl | he
  · have hfull : 2 ^ 52 ≤ m' := h'.full (by have := h.least; omega)
    exact absurd heq (scaled_lt_of_exponent_lt h.lt hfull he).ne
  · have hpos : (2 : Rat) ^ e ≠ 0 := zpow_ne_zero _ (by norm_num)
    exact ⟨Nat.cast_injective (mul_right_cancel₀ hpos heq), rfl⟩
  · have hfull : 2 ^ 52 ≤ m := h.full (by have := h'.least; omega)
    exact absurd heq (scaled_lt_of_exponent_lt h'.lt hfull he).ne'

/-- No rational rounds to two doubles. -/
theorem RoundsTo.unique (hq : RoundsTo m e q) (hq' : RoundsTo m' e' q) (h : IsLegal m e)
    (h' : IsLegal m' e') : m = m' ∧ e = e' := by
  rcases lt_trichotomy ((m : Rat) * 2 ^ e) (m' * 2 ^ e') with hlt | heq | hgt
  · exact absurd (hq.lt hq' h h' hlt) (lt_irrefl q)
  · exact h.eq_of_value_eq h' heq
  · exact absurd (hq'.lt hq h' h hgt) (lt_irrefl q)

/-! ## Rounding a fraction -/

theorem divHalfEven_spec (num : Nat) {den : Nat} (hden : 0 < den) :
    Within (divHalfEven num den % 2 = 0) (divHalfEven num den - 1 / 2) (divHalfEven num den + 1 / 2)
      ((num : Rat) / den) := by
  have hpos : (0 : Rat) < den := Nat.cast_pos.2 hden
  have hdiv : (num : Rat) / den = (num / den : Nat) + ((num % den : Nat) : Rat) / den := by
    rw [eq_comm, ← eq_sub_iff_add_eq', div_eq_iff hpos.ne', sub_mul, div_mul_cancel₀ _ hpos.ne',
      eq_sub_iff_add_eq']
    exact_mod_cast (Nat.div_add_mod' num den)
  have hnonneg : 0 ≤ ((num % den : Nat) : Rat) / den := by positivity
  have hone : ((num % den : Nat) : Rat) / den < 1 := by
    rw [div_lt_one hpos]
    exact_mod_cast Nat.mod_lt num hden
  have hhalf : ((num % den : Nat) : Rat) / den < 1 / 2 ↔ 2 * (num % den) < den := by
    rw [div_lt_iff₀ hpos, ← Nat.cast_lt (α := Rat), Nat.cast_mul, Nat.cast_ofNat]
    constructor <;> intro h <;> linarith
  have hhalf' : 1 / 2 < ((num % den : Nat) : Rat) / den ↔ den < 2 * (num % den) := by
    rw [lt_div_iff₀ hpos, ← Nat.cast_lt (α := Rat), Nat.cast_mul, Nat.cast_ofNat]
    constructor <;> intro h <;> linarith
  unfold divHalfEven
  dsimp only
  rw [hdiv]
  split
  next h =>
    have := hhalf.2 h
    exact Within.of_lt (by linarith) (by linarith)
  next h =>
    have := mt hhalf.1 h
    split
    next h' =>
      have := hhalf'.2 h'
      rw [Nat.cast_add_one]
      exact Within.of_lt (by linarith) (by linarith)
    next h' =>
      -- a tie: the parity of the quotient decides, and the result is even
      have := mt hhalf'.1 h'
      have heven : (num / den + num / den % 2) % 2 = 0 := by omega
      rw [decide_eq_true heven]
      rcases Nat.mod_two_eq_zero_or_one (num / den) with hparity | hparity <;> rw [hparity] <;>
        exact ⟨by push_cast; linarith, by push_cast; linarith⟩

/-- Scaling a fraction by a power of two, on the side where it is an integer. -/
theorem scaled_div (num den : Nat) (e : Int) :
    ((num * twoPow (-e).toNat : Nat) : Rat) / (den * twoPow e.toNat : Nat) =
      (num : Rat) / den / 2 ^ e := by
  have htwo : (twoPow e.toNat : Rat) = 2 ^ e * twoPow (-e).toNat := natPow_toNat (by decide) e
  have hpos : (twoPow (-e).toNat : Rat) ≠ 0 :=
    Nat.cast_ne_zero.2 (Nat.pow_pos (by decide)).ne'
  rw [Nat.cast_mul, Nat.cast_mul, htwo, ← mul_assoc, mul_div_mul_right _ _ hpos, div_div]

theorem floorLog2_eq {num den : Nat} (hnum : 0 < num) (hden : 0 < den) :
    floorLog2 num den = Int.log 2 ((num : Rat) / den) := by
  have hden' : (0 : Rat) < den := Nat.cast_pos.2 hden
  have hpos : (0 : Rat) < num / den := div_pos (Nat.cast_pos.2 hnum) hden'
  have htest (k : Int) : den * twoPow k.toNat ≤ num * twoPow (-k).toNat ↔
      k ≤ Int.log 2 ((num : Rat) / den) := by
    have hscaled : (0 : Rat) < (den * twoPow k.toNat : Nat) :=
      Nat.cast_pos.2 (Nat.mul_pos hden (Nat.pow_pos (by decide)))
    rw [← Int.zpow_le_iff_le_log (by decide) hpos, ← Nat.cast_le (α := Rat), ← one_le_div hscaled,
      scaled_div, one_le_div (zpow_pos (by norm_num) k), Nat.cast_ofNat]
  have hlow : (num.log2 : Int) - (den.log2 + 1) ≤ Int.log 2 ((num : Rat) / den) := by
    rw [← Int.zpow_le_iff_le_log (by decide) hpos, Nat.cast_ofNat, zpow_sub₀ (by norm_num)]
    refine div_le_div₀ (Nat.cast_nonneg _) ?_ hden' ?_
    · exact_mod_cast Nat.log2_self_le hnum.ne'
    · exact_mod_cast (Nat.lt_log2_self (n := den)).le
  have hhigh : Int.log 2 ((num : Rat) / den) < (num.log2 + 1 : Int) - den.log2 := by
    rw [← Int.lt_zpow_iff_log_lt (by decide) hpos, Nat.cast_ofNat, zpow_sub₀ (by norm_num)]
    refine div_lt_div₀ ?_ ?_ (by positivity) (by positivity)
    · exact_mod_cast Nat.lt_log2_self (n := num)
    · exact_mod_cast Nat.log2_self_le hden.ne'
  unfold floorLog2
  dsimp only
  split
  next h =>
    have := (htest _).1 h
    omega
  next h =>
    have := mt (htest _).2 h
    omega

/-- A significand with its exponent, as the bits without the sign. -/
def word (m : Nat) (e : Int) : Nat := (e + 1074).toNat * 2 ^ 52 + m

/-- A fraction is scaled so far that its integer part fills a significand, if the exponent is not
the smallest one, and then rounded to an integer. -/
theorem magnitudeBits_spec {num den : Nat} (hnum : 0 < num) (hden : 0 < den) :
    ∃ n e, -1074 ≤ e ∧ magnitudeBits num den = min (word n e) infinityBits ∧
      Within (n % 2 = 0) (n - 1 / 2) (n + 1 / 2) ((num : Rat) / den / 2 ^ e) ∧
      (num : Rat) / den / 2 ^ e < 2 ^ 53 ∧
      (-1074 < e → (2 : Rat) ^ 52 ≤ (num : Rat) / den / 2 ^ e) := by
  have hpos : (0 : Rat) < num / den := div_pos (Nat.cast_pos.2 hnum) (Nat.cast_pos.2 hden)
  have hlog := floorLog2_eq hnum hden
  have hlow : (2 : Rat) ^ floorLog2 num den ≤ num / den := by
    rw [hlog]
    exact_mod_cast Int.zpow_log_le_self (b := 2) (by decide) hpos
  have hhigh : (num : Rat) / den < 2 ^ (floorLog2 num den + 1) := by
    rw [hlog]
    exact_mod_cast Int.lt_zpow_succ_log_self (b := 2) (by decide) ((num : Rat) / den)
  refine ⟨_, max (floorLog2 num den - 52) (-1074), le_max_right _ _, rfl, ?_, ?_, fun he => ?_⟩
  · rw [← scaled_div]
    exact divHalfEven_spec _ (Nat.mul_pos hden (Nat.pow_pos (by decide)))
  · rw [div_lt_iff₀ (zpow_pos (by norm_num) _), ← zpow_natCast, ← zpow_add₀ (by norm_num)]
    exact hhigh.trans_le (zpow_le_zpow_right₀ (by norm_num) (by omega))
  · rw [le_div_iff₀ (zpow_pos (by norm_num) _), ← zpow_natCast, ← zpow_add₀ (by norm_num)]
    exact (zpow_le_zpow_right₀ (by norm_num) (by omega)).trans hlow

/-- What is rounded to `n` units of the last place, and is no smaller than a power of two that `n`
may be, rounds to the double that they make. -/
theorem roundsTo_of_within {n : Nat}
    (h : Within (n % 2 = 0) (n - 1 / 2) (n + 1 / 2) (q / 2 ^ e))
    (hfull : -1074 < e → (2 : Rat) ^ 52 ≤ q / 2 ^ e) : RoundsTo n e q := by
  have hpos : (0 : Rat) < 2 ^ e := zpow_pos (by norm_num) e
  rw [RoundsTo, ← div_mul_cancel₀ q hpos.ne', Within.mul_iff hpos]
  unfold halfway
  split
  next hpower =>
    have hlow := hfull hpower.2
    have hhigh := h.le.2
    rw [hpower.1] at hhigh ⊢
    exact ⟨by push_cast; linarith, hhigh⟩
  next => exact h

/-- A significand that is rounded up to the next power of two makes for the next exponent. -/
theorem roundsTo_carry (hlow : (2 : Rat) ^ 53 - 1 / 2 ≤ q / 2 ^ e) (hhigh : q / 2 ^ e < 2 ^ 53)
    (hleast : -1074 ≤ e) : RoundsTo (2 ^ 52) (e + 1) q := by
  have hpos : (0 : Rat) < 2 ^ e := zpow_pos (by norm_num) e
  have hhalfway : halfway (2 ^ 52) (e + 1) = 1 / 4 := if_pos ⟨rfl, by omega⟩
  rw [RoundsTo, hhalfway, zpow_add_one₀ (by norm_num), ← div_mul_cancel₀ q hpos.ne',
    mul_comm _ (2 : Rat), ← mul_assoc, ← mul_assoc, Within.mul_iff hpos]
  exact ⟨by push_cast; linarith, by push_cast; linarith⟩

/-- The bits of a fraction are those of the double that it rounds to, or of infinity. -/
theorem exists_roundsTo {num den : Nat} (hnum : 0 < num) (hden : 0 < den) :
    ∃ m e, IsLegal m e ∧ RoundsTo m e ((num : Rat) / den) ∧
      magnitudeBits num den = min (word m e) infinityBits := by
  obtain ⟨n, e, hleast, hbits, hn, hhigh, hfull⟩ := magnitudeBits_spec hnum hden
  have hn53 : n ≤ 2 ^ 53 := hn.natCast_le.2 (by exact_mod_cast hhigh.le)
  rcases hn53.lt_or_eq with hlt | heq
  · refine ⟨n, e, ⟨hlt, hleast, fun he => hn.natCast_le.1 ?_⟩, roundsTo_of_within hn hfull, hbits⟩
    exact_mod_cast hfull he
  · refine ⟨2 ^ 52, e + 1, ⟨by decide, by omega, fun _ => le_refl _⟩,
      roundsTo_carry ?_ hhigh hleast, ?_⟩
    · have hlow := hn.le.1
      rwa [heq, Nat.cast_pow, Nat.cast_ofNat] at hlow
    · have hcarry : word (2 ^ 53) e = word (2 ^ 52) (e + 1) := by
        unfold word
        omega
      rw [hbits, heq, hcarry]

/-! ## Writing -/

variable {m : Nat} {e : Int}

theorem word_lt_infinityBits (h : IsLegal m e) : word m e < infinityBits ↔ e ≤ 971 := by
  have hinfinity : infinityBits = 2047 * 2 ^ 52 := rfl
  have hlt := h.lt
  have hleast := h.least
  have hfull := h.full
  rw [hinfinity, word]
  omega

theorem ofBits_word (negative : Bool) (h : IsLegal m e) (he : e ≤ 971) {x : Float}
    (hx : x = Float.ofBits (UInt64.ofNat (negative.toNat * 2 ^ 63 + word m e))) :
    x.isFinite = true ∧ signBit x = negative ∧ significand x = m ∧ exponent x = e := by
  have h52 : twoPow 52 = 2 ^ 52 := rfl
  have hlt := h.lt
  have hleast := h.least
  unfold significand exponent
  by_cases hm : 2 ^ 52 ≤ m
  · obtain ⟨hfinite, hsign, hexponent, hfraction⟩ :=
      ofBits_fields negative (e + 1075).toNat (m - 2 ^ 52) (by omega) (by omega)
        (by unfold word; omega) hx
    refine ⟨hfinite, hsign, ?_, ?_⟩
    · rw [if_neg (by omega)]
      omega
    · omega
  · have hsmall : e = -1074 := by
      by_contra hne
      exact hm (h.full (by omega))
    obtain ⟨hfinite, hsign, hexponent, hfraction⟩ :=
      ofBits_fields negative 0 m (by decide) (by omega) (by unfold word; omega) hx
    refine ⟨hfinite, hsign, ?_, ?_⟩
    · rw [if_pos hexponent, hfraction]
    · omega

theorem nearest_eq_ofBits (negative : Bool) (num den : Nat) :
    nearest negative num den = Float.ofBits (UInt64.ofNat
      (negative.toNat * 2 ^ 63 + if num = 0 then 0 else magnitudeBits num den)) := by
  have hword (bits : Nat) : (if negative then twoPow 63 + bits else bits) =
      negative.toNat * 2 ^ 63 + bits := by
    rw [twoPow_eq]
    cases negative <;> simp
  unfold nearest
  dsimp only
  rw [hword]

/-- A fraction is rounded to the double whose range it is in; beyond the largest one it is infinite.
-/
theorem nearest_spec (negative : Bool) {num den : Nat} (hnum : 0 < num) (hden : 0 < den) :
    ∃ m e, IsLegal m e ∧ RoundsTo m e ((num : Rat) / den) ∧
      if e ≤ 971 then
        (nearest negative num den).isFinite = true ∧ signBit (nearest negative num den) = negative ∧
          significand (nearest negative num den) = m ∧ exponent (nearest negative num den) = e
      else (nearest negative num den).isFinite = false := by
  obtain ⟨m, e, hlegal, hrounds, hbits⟩ := exists_roundsTo hnum hden
  refine ⟨m, e, hlegal, hrounds, ?_⟩
  have hnearest := nearest_eq_ofBits negative num den
  rw [if_neg hnum.ne', hbits] at hnearest
  split
  next he =>
    rw [min_eq_left ((word_lt_infinityBits hlegal).2 he).le] at hnearest
    exact ofBits_word negative hlegal he hnearest
  next he =>
    rw [min_eq_right (not_lt.1 (mt (word_lt_infinityBits hlegal).1 he))] at hnearest
    rw [hnearest]
    cases negative <;> decide

/-- A double is the nearest one to what rounds to it, and to nothing else. -/
theorem nearest_eq_iff (negative : Bool) {num den : Nat} (hnum : 0 < num) (hden : 0 < den)
    {x : Float} (hx : x.isFinite = true) :
    nearest negative num den = x ↔
      signBit x = negative ∧ RoundsTo (significand x) (exponent x) ((num : Rat) / den) := by
  obtain ⟨m, e, hlegal, hrounds, hfields⟩ := nearest_spec negative hnum hden
  constructor
  · rintro rfl
    split at hfields
    next =>
      obtain ⟨-, hsign, rfl, rfl⟩ := hfields
      exact ⟨hsign, hrounds⟩
    next =>
      rw [hfields] at hx
      cases hx
  · rintro ⟨rfl, hx'⟩
    obtain ⟨rfl, rfl⟩ := hrounds.unique hx' hlegal (isLegal x)
    rw [if_pos (exponent_le hx)] at hfields
    obtain ⟨-, hsign, hm, he⟩ := hfields
    exact eq_of_fields hsign hm he

theorem nearest_ratio_eq_iff (negative : Bool) {q : Rat} (hq : q ≠ 0) {x : Float}
    (hx : x.isFinite = true) :
    nearest negative q.num.natAbs q.den = x ↔
      signBit x = negative ∧ RoundsTo (significand x) (exponent x) |q| := by
  have hnum : 0 < q.num.natAbs := Int.natAbs_pos.2 (Rat.num_ne_zero.2 hq)
  have habs : (q.num.natAbs : Rat) / q.den = |q| := by
    rw [Rat.abs_def, Rat.divInt_eq_div, Int.cast_natCast, Int.cast_natCast]
  rw [nearest_eq_iff negative hnum q.den_pos hx, habs]

theorem nearest_zero (negative : Bool) (den : Nat) :
    nearest negative 0 den = if negative then -0 else 0 := by
  rw [nearest_eq_ofBits, if_pos rfl]
  cases negative <;> exact eq_of_fields (by decide) (by decide) (by decide)

/-! ## Doubles and integers -/

theorem nearest_of_isLegal (negative : Bool) (h : IsLegal m e) (he : e ≤ 971) {num den : Nat}
    (hnum : 0 < num) (hden : 0 < den) (hvalue : (num : Rat) / den = m * 2 ^ e) :
    (nearest negative num den).isFinite = true ∧
      toRat (nearest negative num den) = signed negative (m * 2 ^ e) := by
  obtain ⟨m', e', hlegal, hrounds, hfields⟩ := nearest_spec negative hnum hden
  rw [hvalue] at hrounds
  obtain ⟨rfl, rfl⟩ := hrounds.unique (roundsTo_self m e) hlegal h
  rw [if_pos he] at hfields
  obtain ⟨hfinite, hsign, hm, he⟩ := hfields
  exact ⟨hfinite, toRat_eq negative m' e' hfinite hsign hm he⟩

/-- Shifted to the left an integer uses all the bits of a significand. -/
theorem shifted_bounds {k : Nat} (hk : k ≠ 0) (hlog : k.log2 ≤ 52) :
    2 ^ 52 ≤ k * 2 ^ (52 - k.log2) ∧ k * 2 ^ (52 - k.log2) < 2 ^ 53 := by
  have hpow (j : Nat) (hj : j = 52 - k.log2 + k.log2) : 2 ^ j = 2 ^ k.log2 * 2 ^ (52 - k.log2) := by
    rw [hj, pow_add, mul_comm]
  constructor
  · rw [hpow 52 (by omega)]
    exact Nat.mul_le_mul_right _ (Nat.log2_self_le hk)
  · rw [show 53 = 52 + 1 from rfl, pow_succ, hpow 52 (by omega), mul_right_comm, ← pow_succ]
    exact Nat.mul_lt_mul_of_pos_right Nat.lt_log2_self (Nat.two_pow_pos _)

theorem nearest_integer (negative : Bool) {k : Nat} (hk : k ≤ 2 ^ 52) :
    (nearest negative k 1).isFinite = true ∧ toRat (nearest negative k 1) = signed negative k := by
  by_cases hzero : k = 0
  · rw [hzero, nearest_zero, Nat.cast_zero, signed_zero]
    cases negative <;> exact ⟨by decide, (toRat_eq_zero_iff (by decide)).2 (by decide)⟩
  · have hlog : k.log2 ≤ 52 := Nat.lt_succ_iff.1 ((Nat.log2_lt hzero).2 (by omega))
    obtain ⟨hlow, hhigh⟩ := shifted_bounds hzero hlog
    have hlegal : IsLegal (k * 2 ^ (52 - k.log2)) (-((52 - k.log2 : Nat) : Int)) :=
      ⟨hhigh, by omega, fun _ => hlow⟩
    have hcancel : (2 : Rat) ^ (52 - k.log2) ≠ 0 := pow_ne_zero _ (by norm_num)
    have hvalue :
        ((k * 2 ^ (52 - k.log2) : Nat) : Rat) * 2 ^ (-((52 - k.log2 : Nat) : Int)) = k := by
      rw [zpow_neg, zpow_natCast, Nat.cast_mul, Nat.cast_pow, Nat.cast_ofNat,
        mul_inv_cancel_right₀ hcancel]
    rw [← hvalue]
    exact nearest_of_isLegal negative hlegal (by omega) (Nat.pos_of_ne_zero hzero) Nat.one_pos
      (by rw [hvalue, Nat.cast_one, div_one])

end Binary64

end LinProg
