import LinProg.Proofs.Simplex.Rounds
import Mathlib.Algebra.BigOperators.Ring.Finset
import Mathlib.Algebra.Order.BigOperators.Group.Finset
import Mathlib.Data.Fintype.BigOperators
import Mathlib.Tactic.Ring

/-!
# How many pivots a guard allows

Few indices can reach the threshold without tripping the guard, and none of them can reach ten
times as much.  All others stay below the threshold.  So the pivots that a guard has counted on some
indices are at most `limit`.
-/

namespace LinProg.CyclingGuard

/-- What a guard counts is right as far as some indices are concerned. -/
structure Tallies (g : CyclingGuard) (indices : Finset Nat) : Prop where
  reached : g.reached = ∑ i ∈ indices, if g.threshold ≤ g.count i then 1 else 0
  le_maxCount : ∀ i ∈ indices, g.count i ≤ g.maxCount

def total (g : CyclingGuard) (indices : Finset Nat) : Nat := ∑ i ∈ indices, g.count i

/-- Pivots that `size` indices can make before a guard trips: all of them one less than the
threshold, and as many as may reach it nine times the threshold more. -/
def limit (nrWatched threshold size : Nat) : Nat :=
  min (max (nrWatched / 2) 1 - 1) size * (9 * threshold) + size * (threshold - 1)

theorem limit_mono (nrWatched threshold : Nat) {size size' : Nat} (h : size ≤ size') :
    limit nrWatched threshold size ≤ limit nrWatched threshold size' :=
  Nat.add_le_add (Nat.mul_le_mul_right _ (min_le_min_left _ h)) (Nat.mul_le_mul_right _ h)

theorem limit_le (nrWatched size : Nat) {threshold : Nat} (h : 0 < threshold) :
    limit nrWatched threshold size ≤ size * (10 * threshold) := by
  calc limit nrWatched threshold size
      ≤ size * (9 * threshold) + size * (threshold - 1) :=
        Nat.add_le_add_right (Nat.mul_le_mul_right _ (min_le_right _ _)) _
    _ = size * (9 * threshold + (threshold - 1)) := (Nat.mul_add ..).symm
    _ ≤ size * (10 * threshold) := Nat.mul_le_mul_left _ (by omega)

/-- The limit, apart for indices that reach the threshold and those that don't. -/
theorem limit_eq (nrWatched size : Nat) {threshold k : Nat} (h : 0 < threshold)
    (hk : k = min (max (nrWatched / 2) 1 - 1) size) :
    limit nrWatched threshold size = k * (10 * threshold - 1) + (size - k) * (threshold - 1) := by
  obtain ⟨rest, hrest⟩ := Nat.exists_eq_add_of_le (hk ▸ min_le_right _ _ : k ≤ size)
  have hten : 10 * threshold - 1 = 9 * threshold + (threshold - 1) := by omega
  rw [limit, ← hk, hten, hrest, Nat.add_sub_cancel_left]
  ring

/-! ## Counting -/

structure Blank (g : CyclingGuard) : Prop where
  threshold_pos : 0 < g.threshold
  count (i : Nat) : g.count i = 0
  reached : g.reached = 0
  maxCount : g.maxCount = 0

theorem count_of_zeros {g : CyclingGuard} {size : Nat} (h : g.counts = Array.replicate size 0)
    (i : Nat) : g.count i = 0 := by
  rw [count, h, Array.getD_eq_getD_getElem?, Array.getElem?_replicate]
  split <;> rfl

theorem blank_new (nrWatched threshold : Nat) : (new nrWatched threshold).Blank :=
  ⟨Nat.le_max_right .., count_of_zeros rfl, rfl, rfl⟩

theorem blank_reset {g : CyclingGuard} (h : 0 < g.threshold) : g.reset.Blank :=
  ⟨h, count_of_zeros rfl, rfl, rfl⟩

namespace Blank

variable {g : CyclingGuard} (h : g.Blank)
include h

theorem tallies (indices : Finset Nat) : g.Tallies indices := by
  refine ⟨h.reached.trans (Finset.sum_eq_zero fun i _ => if_neg ?_).symm, fun i _ => ?_⟩
  · rw [h.count]
    exact Nat.not_le_of_lt h.threshold_pos
  · rw [h.count]
    exact Nat.zero_le _

theorem total (indices : Finset Nat) : g.total indices = 0 :=
  Finset.sum_eq_zero fun i _ => h.count i

theorem isTripped : g.isTripped = false := by
  have := h.threshold_pos
  rw [CyclingGuard.isTripped, h.reached, h.maxCount, Bool.or_eq_false_iff]
  exact ⟨decide_eq_false (by omega), decide_eq_false (by omega)⟩

end Blank

variable {g : CyclingGuard} {indices : Finset Nat} {i : Nat}

theorem count_record (g : CyclingGuard) (i j : Nat) :
    (g.record i).count j = if j = i then g.count i + 1 else g.count j := by
  simp only [record, count, Array.getD_eq_getD_getElem?, Array.getElem?_setIfInBounds]
  by_cases hij : i = j
  · subst hij
    rw [if_pos rfl, if_pos rfl, if_pos (by rw [Array.size_rightpad]; omega)]
    rfl
  · rw [if_neg hij, if_neg (Ne.symm hij), Array.rightpad, Array.getElem?_append]
    split
    next => rfl
    next hlt =>
      rw [Array.getElem?_eq_none (Nat.le_of_not_lt hlt), Array.getElem?_replicate]
      split <;> rfl

theorem total_record (hi : i ∈ indices) : (g.record i).total indices = g.total indices + 1 := by
  have hcount (j : Nat) : (g.record i).count j = g.count j + if j = i then 1 else 0 := by
    rw [count_record]
    split
    next h => rw [h]
    next => rfl
  simp only [total, hcount, Finset.sum_add_distrib, Finset.sum_ite_eq', if_pos hi]

theorem Tallies.record (h : g.Tallies indices) (hi : i ∈ indices) :
    (g.record i).Tallies indices := by
  constructor
  · have hreach (j : Nat) : (if g.threshold ≤ (g.record i).count j then 1 else 0) =
        (if g.threshold ≤ g.count j then 1 else 0) +
          if j = i then (if g.count i + 1 = g.threshold then 1 else 0) else 0 := by
      rw [count_record]
      by_cases hji : j = i
      · subst hji
        simp only [if_true]
        split <;> split <;> split <;> omega
      · simp only [if_neg hji, Nat.add_zero]
    refine .trans ?_ (Finset.sum_congr rfl fun j _ => (hreach j).symm)
    rw [Finset.sum_add_distrib, Finset.sum_ite_eq', if_pos hi, ← h.reached]
    show (if g.count i + 1 = g.threshold then g.reached + 1 else g.reached) = _
    split <;> rfl
  · intro j hj
    rw [count_record]
    split
    next => exact Nat.le_max_right ..
    next => exact (h.le_maxCount j hj).trans (Nat.le_max_left ..)

/-! ## The limit -/

/-- As long as a guard doesn't trip, it has counted no more pivots than the limit. -/
theorem Tallies.total_le (h : g.Tallies indices) (hidle : g.isTripped = false) :
    g.total indices ≤ limit g.nrWatched g.threshold indices.card := by
  simp only [isTripped, Bool.or_eq_false_iff, decide_eq_false_iff_not, Nat.not_le] at hidle
  obtain ⟨hreached, hmax⟩ := hidle
  have hcount (i : Nat) (hi : i ∈ indices) : g.count i ≤
      (if g.threshold ≤ g.count i then 1 else 0) * (9 * g.threshold) + (g.threshold - 1) := by
    have := h.le_maxCount i hi
    split <;> omega
  have hfew : g.reached ≤ min (max (g.nrWatched / 2) 1 - 1) indices.card := by
    refine le_min (Nat.le_sub_one_of_lt hreached) ?_
    rw [h.reached, ← Finset.card_filter]
    exact Finset.card_filter_le _ _
  calc g.total indices
      ≤ ∑ i ∈ indices, ((if g.threshold ≤ g.count i then 1 else 0) * (9 * g.threshold) +
          (g.threshold - 1)) := Finset.sum_le_sum hcount
    _ = g.reached * (9 * g.threshold) + indices.card * (g.threshold - 1) := by
        rw [Finset.sum_add_distrib, ← Finset.sum_mul, ← h.reached,
          Finset.sum_const_nat fun _ _ => rfl]
    _ ≤ limit g.nrWatched g.threshold indices.card :=
        Nat.add_le_add_right (Nat.mul_le_mul_right _ hfew) _

end LinProg.CyclingGuard
