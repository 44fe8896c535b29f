import LinProg.Proofs.Number.Rounding

/-!
# Shortest decimals are found

The search for a shortest decimal goes from grids that are too coarse for any point of the range
that rounds to the double (`lt_firstGrid`) to finer ones.  A grid with a point in the range has one
next to the double (`Basin.pick?_ne_none`), and the last grid that is tried is finer than the range
(`lastGrid_le`), so the search ends with the coarsest grid that has one (`shortest_spec`).  A
decimal of fewer digits would have a power of ten between itself and the one found, which lies on a
coarser grid: what is found reads back as the double and is a shortest decimal that does
(`isShortestOf_shortest`).
-/

namespace LinProg

namespace Decimal

open Binary64

/-! ## Grids -/

/-- What makes integers of multiples of `2 ^ a` and of `10 ^ k`. -/
def commonScale (a k : Int) : Rat := (twoPow (-a).toNat * tenPow (-k).toNat : Nat)

theorem commonScale_pos (a k : Int) : 0 < commonScale a k :=
  Nat.cast_pos.2 (Nat.mul_pos (Nat.pow_pos (by decide)) (Nat.pow_pos (by decide)))

theorem cast_binary (c : Nat) (a k : Int) :
    ((c * (twoPow a.toNat * tenPow (-k).toNat) : Nat) : Rat) = c * 2 ^ a * commonScale a k := by
  have htwo : (twoPow a.toNat : Rat) = 2 ^ a * twoPow (-a).toNat := natPow_toNat (by decide) a
  unfold commonScale
  push_cast
  rw [htwo]
  ring

theorem cast_decimal (d : Nat) (a k : Int) :
    ((d * (tenPow k.toNat * twoPow (-a).toNat) : Nat) : Rat) = d * 10 ^ k * commonScale a k := by
  have hten : (tenPow k.toNat : Rat) = 10 ^ k * tenPow (-k).toNat := natPow_toNat (by decide) k
  unfold commonScale
  push_cast
  rw [hten]
  ring

/-- The step of a grid against a power of two, in integers and as powers. -/
theorem grid_le_iff (k a : Int) :
    tenPow k.toNat * twoPow (-a).toNat ≤ twoPow a.toNat * tenPow (-k).toNat ↔
      (10 : Rat) ^ k ≤ 2 ^ a := by
  have hbinary := cast_binary 1 a k
  have hdecimal := cast_decimal 1 a k
  rw [Nat.one_mul, Nat.cast_one, one_mul] at hbinary hdecimal
  rw [← Nat.cast_le (α := Rat), hbinary, hdecimal, mul_le_mul_iff_left₀ (commonScale_pos a k)]

theorem coarseExponent_mono {k k' : Int} (h : k ≤ k') : coarseExponent k ≤ coarseExponent k' := by
  unfold coarseExponent
  omega

/-- The last grid of a search is finer than any double by far.  One case for each sixteen exponents
is enough. -/
theorem lastGrid_le {k : Int} (hlow : -1074 ≤ k) (hhigh : k ≤ 1025) :
    (10 : Rat) ^ (coarseExponent k - 23) ≤ 2 ^ (k - 55) := by
  have hblocks : ∀ i : Nat, i < 134 →
      tenPow (coarseExponent (16 * ((i : Int) - 68) + 15) - 23).toNat *
          twoPow (-(16 * ((i : Int) - 68) - 55)).toNat ≤
        twoPow (16 * ((i : Int) - 68) - 55).toNat *
          tenPow (-(coarseExponent (16 * ((i : Int) - 68) + 15) - 23)).toNat := by
    decide +kernel
  have hblock := (grid_le_iff _ _).1 (hblocks (k / 16 + 68).toNat (by omega))
  rw [show (((k / 16 + 68).toNat : Nat) : Int) - 68 = k / 16 by omega] at hblock
  calc (10 : Rat) ^ (coarseExponent k - 23)
      ≤ 10 ^ (coarseExponent (16 * (k / 16) + 15) - 23) :=
        zpow_le_zpow_right₀ (by norm_num)
          (sub_le_sub_right (coarseExponent_mono (by omega)) 23)
    _ ≤ 2 ^ (16 * (k / 16) - 55) := hblock
    _ ≤ 2 ^ (k - 55) := zpow_le_zpow_right₀ (by norm_num) (by omega)

/-- A grid that is coarser than the first one of a search is too coarse.  One case for each four
exponents is enough. -/
theorem lt_firstGrid {k : Int} (hlow : -1074 ≤ k) (hhigh : k ≤ 1025) :
    (2 : Rat) ^ k ≤ 10 ^ (coarseExponent k + 1) := by
  have hblocks : ∀ i : Nat, i < 530 →
      ¬tenPow (coarseExponent (4 * ((i : Int) - 270)) + 1).toNat *
          twoPow (-(4 * ((i : Int) - 270) + 3)).toNat ≤
        twoPow (4 * ((i : Int) - 270) + 3).toNat *
          tenPow (-(coarseExponent (4 * ((i : Int) - 270)) + 1)).toNat := by
    decide +kernel
  have hblock := lt_of_not_ge (mt (grid_le_iff _ _).2 (hblocks (k / 4 + 270).toNat (by omega)))
  rw [show (((k / 4 + 270).toNat : Nat) : Int) - 270 = k / 4 by omega] at hblock
  calc (2 : Rat) ^ k ≤ 2 ^ (4 * (k / 4) + 3) := zpow_le_zpow_right₀ (by norm_num) (by omega)
    _ ≤ 10 ^ (coarseExponent (4 * (k / 4)) + 1) := hblock.le
    _ ≤ 10 ^ (coarseExponent k + 1) :=
      zpow_le_zpow_right₀ (by norm_num) (add_le_add_left (coarseExponent_mono (by omega)) 1)

/-! ## Points next to the double -/

namespace Basin

variable {m : Nat} {e k : Int} {d : Nat}

/-- Basins count in quarters of the last place. -/
theorem quarter_mul_four (e : Int) : (2 : Rat) ^ e = 2 ^ (e - 2) * 4 := by
  rw [show (4 : Rat) = 2 ^ (2 : Int) by norm_num, ← zpow_add₀ (by norm_num), sub_add_cancel]

theorem low_ofSignificand (hm : m ≠ 0) (e : Int) :
    ((ofSignificand m e).low : Rat) * 2 ^ (e - 2) = (m - halfway m e) * 2 ^ e := by
  have hlow : ((ofSignificand m e).low : Rat) = (m - halfway m e) * 4 := by
    have h52 : twoPow 52 = 2 ^ 52 := rfl
    unfold ofSignificand halfway
    dsimp only
    rw [h52]
    split
    · rw [Nat.cast_sub (by omega)]
      push_cast
      ring
    · rw [Nat.cast_sub (by omega)]
      push_cast
      ring
  rw [hlow, quarter_mul_four e]
  ring

theorem high_ofSignificand (m : Nat) (e : Int) :
    ((ofSignificand m e).high : Rat) * 2 ^ (e - 2) = (m + 1 / 2) * 2 ^ e := by
  show ((4 * m + 2 : Nat) : Rat) * 2 ^ (e - 2) = _
  rw [quarter_mul_four e]
  push_cast
  ring

/-- The test of a point is the question whether it rounds to the double. -/
theorem contains_iff (hm : m ≠ 0) (e : Int) (d : Nat) (k : Int) :
    (ofSignificand m e).contains d k = true ↔ RoundsTo m e (d * 10 ^ k) := by
  have hpoint : d * tenPow k.toNat * (ofSignificand m e).den =
      d * (tenPow k.toNat * twoPow (-(e - 2)).toNat) := by
    rw [Int.neg_sub, Nat.mul_assoc]
    rfl
  have hwithin : (ofSignificand m e).contains d k = true ↔
      Within (m % 2 = 0)
        ((ofSignificand m e).low * (twoPow (e - 2).toNat * tenPow (-k).toNat) : Nat)
        ((ofSignificand m e).high * (twoPow (e - 2).toNat * tenPow (-k).toNat) : Nat)
        (d * (tenPow k.toNat * twoPow (-(e - 2)).toNat) : Nat) := by
    unfold contains Within
    dsimp only
    rw [hpoint]
    show (if decide (m % 2 = 0) = true then _ else _) = true ↔ _
    split
    · rw [Bool.and_eq_true, decide_eq_true_iff, decide_eq_true_iff, Nat.cast_le, Nat.cast_le]
      rfl
    · rw [Bool.and_eq_true, decide_eq_true_iff, decide_eq_true_iff, Nat.cast_lt, Nat.cast_lt]
      rfl
  rw [hwithin, cast_binary, cast_binary, cast_decimal, low_ofSignificand hm, high_ofSignificand,
    Within.mul_iff (commonScale_pos _ _), RoundsTo]

theorem below_eq (m : Nat) (e k : Int) :
    (ofSignificand m e).value * (ofSignificand m e).num * tenPow (-k).toNat /
        ((ofSignificand m e).den * tenPow k.toNat) =
      ⌊(m : Rat) * 2 ^ e / 10 ^ k⌋₊ := by
  have hscaled : (((ofSignificand m e).value * (ofSignificand m e).num * tenPow (-k).toNat : Nat) :
      Rat) = m * 2 ^ e * commonScale (e - 2) k := by
    rw [Nat.mul_assoc]
    refine (cast_binary (4 * m) (e - 2) k).trans ?_
    rw [quarter_mul_four e]
    push_cast
    ring
  have hgrid : (((ofSignificand m e).den * tenPow k.toNat : Nat) : Rat) =
      10 ^ k * commonScale (e - 2) k := by
    have hdecimal := cast_decimal 1 (e - 2) k
    rw [Nat.one_mul, Nat.cast_one, one_mul, Int.neg_sub, Nat.mul_comm] at hdecimal
    exact hdecimal
  rw [← Nat.floor_div_eq_div (K := Rat), hscaled, hgrid,
    mul_div_mul_right _ _ (commonScale_pos _ _).ne']

theorem contains_of_pick? {b : Basin} (h : b.pick? k = some d) : b.contains d k = true := by
  unfold pick? at h
  dsimp only at h
  split at h
  next hbelow habove =>
    obtain rfl := Option.some.inj h
    split
    · exact hbelow
    · exact habove
  next hbelow _ => exact Option.some.inj h ▸ hbelow
  next _ habove => exact Option.some.inj h ▸ habove
  next => cases h

theorem pick?_ne_none (hm : m ≠ 0) (h : RoundsTo m e (d * 10 ^ k)) :
    (ofSignificand m e).pick? k ≠ none := by
  have hstep : (0 : Rat) < 10 ^ k := zpow_pos (by norm_num) k
  have hvalue : (0 : Rat) ≤ m * 2 ^ e / 10 ^ k := by positivity
  have hself := roundsTo_self m e
  generalize hbelow : ⌊(m : Rat) * 2 ^ e / 10 ^ k⌋₊ = below
  have hneighbour : RoundsTo m e (below * 10 ^ k) ∨ RoundsTo m e ((below + 1 : Nat) * 10 ^ k) := by
    rcases Nat.lt_or_ge below d with hlt | hge
    · refine .inr (hself.convex h ?_ ?_)
      · rw [← div_le_iff₀ hstep, ← hbelow]
        exact (Nat.lt_succ_floor _).le
      · exact mul_le_mul_of_nonneg_right (Nat.cast_le.2 hlt) hstep.le
    · refine .inl (h.convex hself ?_ ?_)
      · exact mul_le_mul_of_nonneg_right (Nat.cast_le.2 hge) hstep.le
      · rw [← le_div_iff₀ hstep, ← hbelow]
        exact Nat.floor_le hvalue
  rw [← contains_iff hm, ← contains_iff hm] at hneighbour
  unfold pick?
  dsimp only
  rw [below_eq, hbelow]
  split
  next => exact Option.some_ne_none _
  next => exact Option.some_ne_none _
  next => exact Option.some_ne_none _
  next hnone hnone' => rcases hneighbour with h | h <;> simp_all

theorem exists_point (m : Nat) (e : Int) (hfine : (10 : Rat) ^ k ≤ 2 ^ (e - 2)) :
    ∃ d : Nat, RoundsTo m e (d * 10 ^ k) := by
  have hstep : (0 : Rat) < 10 ^ k := zpow_pos (by norm_num) k
  have hunit : (0 : Rat) < 2 ^ e := zpow_pos (by norm_num) e
  have hlow := Nat.lt_floor_add_one ((m : Rat) * 2 ^ e / 10 ^ k)
  have hhigh := Nat.floor_le (show (0 : Rat) ≤ m * 2 ^ e / 10 ^ k by positivity)
  rw [div_lt_iff₀ hstep] at hlow
  rw [le_div_iff₀ hstep] at hhigh
  have hquarter : (10 : Rat) ^ k ≤ halfway m e * 2 ^ e := by
    have hhalfway : 1 / 4 ≤ halfway m e := by
      unfold halfway
      split <;> norm_num
    have hquarters := quarter_mul_four e
    calc (10 : Rat) ^ k ≤ 1 / 4 * 2 ^ e := by linarith
      _ ≤ halfway m e * 2 ^ e := mul_le_mul_of_nonneg_right hhalfway hunit.le
  exact ⟨_, Within.of_lt (by linarith) (by linarith)⟩

/-! ## The search -/

/-- A search that comes to a grid with a point in the range ends at the first such grid. -/
theorem search_spec {b : Basin} : ∀ (fuel : Nat) (k : Int), b.pick? (k - fuel) ≠ none →
    b.pick? (b.search (fuel + 1) k).2 = some (b.search (fuel + 1) k).1 ∧
      ∀ k', (b.search (fuel + 1) k).2 < k' → k' ≤ k → b.pick? k' = none
  | 0, k, h => by
    rw [Int.natCast_zero, Int.sub_zero] at h
    rw [search]
    split
    next d hd => exact ⟨hd, fun k' hlow hhigh => absurd hlow (not_lt.2 hhigh)⟩
    next hnone => exact absurd hnone h
  | fuel + 1, k, h => by
    rw [search]
    split
    next d hd => exact ⟨hd, fun k' hlow hhigh => absurd hlow (not_lt.2 hhigh)⟩
    next hnone =>
      rw [show k - ((fuel + 1 : Nat) : Int) = k - 1 - (fuel : Int) by omega] at h
      obtain ⟨hfound, hcoarser⟩ := search_spec fuel (k - 1) h
      refine ⟨hfound, fun k' hlow hhigh => ?_⟩
      rcases hhigh.lt_or_eq with hlt | rfl
      · exact hcoarser k' hlow (by omega)
      · exact hnone

end Basin

/-- Points of a range that doesn't hold zero are below the power of two that follows the double. -/
theorem roundsTo_lt_twoPow {m : Nat} {e : Int} {q : Rat} (h : RoundsTo m e q) :
    q < 2 ^ ((m.log2 : Int) + e + 1) := by
  have hunit : (0 : Rat) < 2 ^ e := zpow_pos (by norm_num) e
  have hm : (m : Rat) + 1 ≤ 2 ^ (m.log2 + 1) := by exact_mod_cast Nat.lt_log2_self (n := m)
  calc q ≤ (m + 1 / 2) * 2 ^ e := h.le.2
    _ < 2 ^ (m.log2 + 1) * 2 ^ e := mul_lt_mul_of_pos_right (by linarith) hunit
    _ = 2 ^ ((m.log2 : Int) + e + 1) := by
      rw [← zpow_natCast, ← zpow_add₀ (by norm_num)]
      congr 1
      push_cast
      ring

theorem roundsTo_pos {m : Nat} {e : Int} {q : Rat} (hm : m ≠ 0) (h : RoundsTo m e q) : 0 < q := by
  have hunit : (0 : Rat) < 2 ^ e := zpow_pos (by norm_num) e
  have hone : (1 : Rat) ≤ m := Nat.one_le_cast.2 (Nat.pos_of_ne_zero hm)
  have hhalf := halfway_le m e
  exact (mul_pos (by linarith) hunit).trans_le h.le.1

theorem shortest_of_significand {x : Float} (hm : significand x ≠ 0) :
    shortest x = ⟨signBit x,
      ((Basin.ofSignificand (significand x) (Binary64.exponent x)).search 24
        (coarseExponent ((significand x).log2 + Binary64.exponent x + 1))).1,
      ((Basin.ofSignificand (significand x) (Binary64.exponent x)).search 24
        (coarseExponent ((significand x).log2 + Binary64.exponent x + 1))).2⟩ := by
  unfold shortest
  dsimp only
  rw [if_neg hm]

/-- What is found rounds to the double and is a point of the coarsest grid that has such points. -/
theorem shortest_spec {x : Float} (hx : x.isFinite = true) (hm : significand x ≠ 0) :
    RoundsTo (significand x) (Binary64.exponent x) (shortest x).magnitude ∧
      ∀ (d : Nat) (k : Int), (shortest x).exponent < k →
        ¬RoundsTo (significand x) (Binary64.exponent x) (d * 10 ^ k) := by
  have hlog : (significand x).log2 < 53 := (Nat.log2_lt hm).2 (significand_lt x)
  have hleast := neg_1074_le_exponent x
  have hlargest := exponent_le hx
  have hshortest := shortest_of_significand hm
  generalize hK : ((significand x).log2 : Int) + Binary64.exponent x + 1 = K at hshortest
  obtain ⟨d, hd⟩ := Basin.exists_point (k := coarseExponent K - 23) (significand x)
    (Binary64.exponent x) ((lastGrid_le (by omega) (by omega)).trans
      (zpow_le_zpow_right₀ (by norm_num) (by omega)))
  obtain ⟨hfound, hcoarser⟩ := Basin.search_spec 23 (coarseExponent K) (Basin.pick?_ne_none hm hd)
  rw [hshortest]
  refine ⟨(Basin.contains_iff hm _ _ _).1 (Basin.contains_of_pick? hfound), fun d k hk hd => ?_⟩
  by_cases hfirst : k ≤ coarseExponent K
  · exact Basin.pick?_ne_none hm hd (hcoarser k hk hfirst)
  · -- no grid as coarse as that was tried, but none has a point in the range
    have hstep : (0 : Rat) < 10 ^ k := zpow_pos (by norm_num) k
    have hone : (1 : Rat) ≤ d :=
      Nat.one_le_cast.2 (Nat.cast_pos.1 (pos_of_mul_pos_left (roundsTo_pos hm hd) hstep.le))
    have hbelow := roundsTo_lt_twoPow hd
    rw [hK] at hbelow
    have hcoarse : (2 : Rat) ^ K ≤ 10 ^ k :=
      (lt_firstGrid (by omega) (by omega)).trans (zpow_le_zpow_right₀ (by norm_num) (by omega))
    have hpoint : (10 : Rat) ^ k ≤ d * 10 ^ k := le_mul_of_one_le_left hstep.le hone
    linarith

/-! ## Shortest decimals -/

def toDouble (d : Decimal) : Float := nearest d.negative d.magnitude.num.natAbs d.magnitude.den

def nrDigits (d : Decimal) : Nat := (Nat.toDigits 10 d.digits).length

/-- A decimal that reads back as the double, and none of fewer digits does. -/
structure IsShortestOf (d : Decimal) (x : Float) : Prop where
  readsBack : d.toDouble = x
  least (d' : Decimal) : d'.toDouble = x → d.nrDigits ≤ d'.nrDigits

theorem magnitude_nonneg (d : Decimal) : 0 ≤ d.magnitude := by
  unfold magnitude
  positivity

theorem magnitude_eq_zero_iff (d : Decimal) : d.magnitude = 0 ↔ d.digits = 0 := by
  have hstep : (10 : Rat) ^ d.exponent ≠ 0 := zpow_ne_zero _ (by norm_num)
  rw [magnitude, mul_eq_zero, or_iff_left hstep, Nat.cast_eq_zero]

theorem toDouble_of_digits {d : Decimal} (h : d.digits = 0) :
    d.toDouble = if d.negative then -0 else 0 := by
  rw [toDouble, (magnitude_eq_zero_iff d).2 h]
  exact nearest_zero d.negative 1

theorem toDouble_eq_iff {d : Decimal} (h : d.digits ≠ 0) {x : Float} (hx : x.isFinite = true) :
    d.toDouble = x ↔
      signBit x = d.negative ∧ RoundsTo (significand x) (Binary64.exponent x) d.magnitude := by
  have hmagnitude : d.magnitude ≠ 0 := mt (magnitude_eq_zero_iff d).1 h
  rw [toDouble, nearest_ratio_eq_iff d.negative hmagnitude hx, abs_of_nonneg (magnitude_nonneg d)]

theorem significand_toDouble_of_digits {d : Decimal} (h : d.digits = 0) :
    significand d.toDouble = 0 := by
  rw [toDouble_of_digits h]
  cases d.negative <;> decide

theorem shortest_of_zero {x : Float} (hm : significand x = 0) :
    shortest x = ⟨signBit x, 0, 0⟩ := by
  unfold shortest
  dsimp only
  rw [if_pos hm]

theorem nrDigits_shortest_le {x : Float} (hx : x.isFinite = true) (hm : significand x ≠ 0)
    {d : Decimal} (h : RoundsTo (significand x) (Binary64.exponent x) d.magnitude) :
    (shortest x).nrDigits ≤ d.nrDigits := by
  obtain ⟨hfound, hcoarser⟩ := shortest_spec hx hm
  by_contra hfewer
  have hexponent : d.exponent ≤ (shortest x).exponent :=
    not_lt.1 fun hlt => hcoarser d.digits d.exponent hlt h
  have hpos : 0 < d.nrDigits := Nat.length_toDigits_pos
  have hbelow : d.digits < 10 ^ d.nrDigits :=
    (Nat.length_toDigits_le_iff (by decide) hpos).1 le_rfl
  have habove : 10 ^ d.nrDigits ≤ (shortest x).digits :=
    not_lt.1 (mt (Nat.length_toDigits_le_iff (by decide) hpos).2 hfewer)
  have hstep : (0 : Rat) < 10 ^ (shortest x).exponent := zpow_pos (by norm_num) _
  -- the power of ten in between
  refine hcoarser 1 ((shortest x).exponent + d.nrDigits) (by omega) (h.convex hfound ?_ ?_)
  · rw [Nat.cast_one, one_mul, add_comm, zpow_add₀ (by norm_num), zpow_natCast]
    exact mul_le_mul (by exact_mod_cast hbelow.le)
      (zpow_le_zpow_right₀ (by norm_num) hexponent) (zpow_pos (by norm_num) _).le (by positivity)
  · rw [Nat.cast_one, one_mul, add_comm, zpow_add₀ (by norm_num), zpow_natCast]
    exact mul_le_mul_of_nonneg_right (by exact_mod_cast habove) hstep.le

theorem digits_shortest_eq_zero_iff {x : Float} (hx : x.isFinite = true) :
    (shortest x).digits = 0 ↔ significand x = 0 := by
  by_cases hm : significand x = 0
  · rw [shortest_of_zero hm]
    exact iff_of_true rfl hm
  · refine iff_of_false (fun hdigits => ?_) hm
    have hpos := roundsTo_pos hm (shortest_spec hx hm).1
    rw [(magnitude_eq_zero_iff _).2 hdigits] at hpos
    exact lt_irrefl _ hpos

/-- The decimal of a finite double is a shortest one that reads back as the double. -/
theorem isShortestOf_shortest {x : Float} (hx : x.isFinite = true) :
    (shortest x).IsShortestOf x := by
  by_cases hm : significand x = 0
  · have hdigits := (digits_shortest_eq_zero_iff hx).2 hm
    refine ⟨?_, fun d' _ => ?_⟩
    · rw [toDouble_of_digits hdigits, negative_shortest]
      exact (eq_zero_of_significand hm).symm
    · rw [shortest_of_zero hm]
      show (Nat.toDigits 10 0).length ≤ d'.nrDigits
      rw [Nat.toDigits_zero]
      exact Nat.length_toDigits_pos
  · have hdigits := mt (digits_shortest_eq_zero_iff hx).1 hm
    refine ⟨(toDouble_eq_iff hdigits hx).2 ⟨(negative_shortest x).symm, (shortest_spec hx hm).1⟩,
      fun d' hd' => nrDigits_shortest_le hx hm ?_⟩
    have hdigits' : d'.digits ≠ 0 := by
      rintro h0
      rw [← hd'] at hm
      exact hm (significand_toDouble_of_digits h0)
    exact ((toDouble_eq_iff hdigits' hx).1 hd').2

end Decimal

namespace Exact

theorem ofFloat_eq_signed {x : Float} (hx : x.isFinite = true) :
    ofFloat x = Binary64.signed (Binary64.signBit x) (Decimal.shortest x).magnitude := by
  rw [ofFloat_of_isFinite hx, Decimal.toRat_eq, Decimal.negative_shortest, Binary64.signed]

theorem ofFloat_eq_zero_iff {x : Float} (hx : x.isFinite = true) :
    ofFloat x = 0 ↔ Binary64.significand x = 0 := by
  rw [ofFloat_eq_signed hx, Binary64.signed_eq_zero_iff, Decimal.magnitude_eq_zero_iff,
    Decimal.digits_shortest_eq_zero_iff hx]

theorem isZero_ofFloat {x : Float} (hx : x.isFinite = true) :
    Scalar.isZero (Scalar.ofFloat x : Rat) = Scalar.isZero x := by
  have hzero : (x == 0) = true ↔ ofFloat x = 0 := by
    rw [Binary64.beq_iff hx Binary64.isFinite_zero, Binary64.toRat_zero,
      Binary64.toRat_eq_zero_iff hx, ofFloat_eq_zero_iff hx]
  rw [Bool.eq_iff_iff]
  exact beq_iff_eq.trans hzero.symm

end Exact

end LinProg
