import LinProg.Proofs.Safety.Start
import LinProg.Proofs.Simplex.Termination

/-!
# Counted pivots

A counted pivot succeeds if and only if the counts of the run fit 64 bits afterwards
(`countedPivot_eq`).  As long as ten times the threshold fits, so does every count of the guard,
which would have tripped before; and if it doesn't, the first pivot asks for it.
-/

namespace LinProg

open Tableau Board
open Numeral (countLimit)

namespace CyclingGuard

variable {g : CyclingGuard} {indices : Finset Nat} {i threshold pivots : Nat}

theorem countsFit_iff : countsFit threshold pivots = true ↔
    (0 < pivots → 10 * threshold < countLimit ∧ pivots < countLimit) := by
  simp [countsFit, or_iff_not_imp_left, Nat.pos_iff_ne_zero]

theorem countsFit_eq_false_iff : countsFit threshold pivots = false ↔
    0 < pivots ∧ (countLimit ≤ 10 * threshold ∨ countLimit ≤ pivots) := by
  rw [← Bool.not_eq_true, countsFit_iff, Classical.not_imp, not_and_or, Nat.not_lt, Nat.not_lt]

theorem countsFit_of_le {pivots' : Nat} (h : countsFit threshold pivots' = true)
    (hle : pivots ≤ pivots') : countsFit threshold pivots = true :=
  countsFit_iff.2 fun hpos =>
    have hfits := countsFit_iff.1 h (hpos.trans_le hle)
    ⟨hfits.1, hle.trans_lt hfits.2⟩

theorem isTripped?_eq (h : 10 * g.threshold < countLimit) : g.isTripped? = some g.isTripped :=
  if_pos (.inr h)

/-- A guard that has counted nothing yet asks at once for ten times the threshold, unless that is
small. -/
theorem isTripped?_first (h : g.Tallies indices) (hidle : g.isTripped = false)
    (hzero : g.total indices = 0) (hthreshold : countLimit ≤ 10 * g.threshold) (hi : i ∈ indices) :
    (g.record i).isTripped? = none ∧ (g.record i).isTripped = false := by
  have hten : 10 < countLimit := by decide
  have hcount : ∀ j ∈ indices, g.count j = 0 := Finset.sum_eq_zero_iff.1 hzero
  have hreached : g.reached = 0 := h.reached.trans <| Finset.sum_eq_zero fun j hj => if_neg <| by
    rw [hcount j hj]
    omega
  have hrecord : (g.record i).reached = 0 := by
    show (if g.count i + 1 = g.threshold then g.reached + 1 else g.reached) = 0
    rw [hcount i hi, if_neg (by omega), hreached]
  have hmax : (g.record i).maxCount < 10 * g.threshold := by
    show max g.maxCount (g.count i + 1) < _
    simp only [isTripped, Bool.or_eq_false_iff, decide_eq_false_iff_not] at hidle
    rw [hcount i hi]
    omega
  have hhalf : ¬max ((g.record i).nrWatched / 2) 1 ≤ (g.record i).reached := by omega
  refine ⟨if_neg (not_or.2 ⟨hhalf, Nat.not_lt.2 hthreshold⟩), ?_⟩
  rw [isTripped, decide_eq_false hhalf, Bool.false_or]
  exact decide_eq_false (Nat.not_le.2 hmax)

end CyclingGuard

namespace Run

variable {τ α : Type} [Tableau τ α]

/-- What becomes of a run that is to be pivoted: the guard counts the pivot on an index, and trips
or lets it pass. -/
def counted (r : Run τ α) (index : Nat) (cycled : Event) (phase : Phase) (row column : Nat) :
    Run τ α × Bool :=
  let r := { r with guard := r.guard.record index }
  if r.guard.isTripped then (r.giveUp cycled, false)
  else ({ r with iterations := r.iterations + 1 }.pivot phase row column, true)

theorem counted_of_tripped {r : Run τ α} {index : Nat}
    (h : (r.guard.record index).isTripped = true) (cycled : Event) (phase : Phase)
    (row column : Nat) : r.counted index cycled phase row column =
      ({ r with guard := r.guard.record index }.giveUp cycled, false) := if_pos h

theorem counted_of_idle {r : Run τ α} {index : Nat}
    (h : (r.guard.record index).isTripped = false) (cycled : Event) (phase : Phase)
    (row column : Nat) : r.counted index cycled phase row column =
      ({ r with
        guard := r.guard.record index
        iterations := r.iterations + 1 }.pivot phase row column, true) :=
  if_neg (h ▸ Bool.false_ne_true)

/-! ## Iterations never fall -/

variable [Scalar α]

theorem iterations_removeRedundant (count row : Nat) (r : Run τ α) :
    (removeRedundant count row r).iterations = r.iterations := by
  induction count generalizing row r with
  | zero => rfl
  | succ count ih =>
    unfold removeRedundant
    split
    · exact ih row _
    · exact ih (row + 1) r

theorem iterations_driveOut (r : Run τ α) : r.driveOut.1.iterations = r.iterations := by
  have hexchanged : ((constraintRows r.tableau).foldl exchange (r, false)).1.iterations =
      r.iterations := by
    refine List.foldlRecOn (motive := fun out : Run τ α × Bool => out.1.iterations = r.iterations)
      _ _ rfl fun out hout row _ => ?_
    unfold exchange
    split
    split <;> [split; skip] <;> exact hout
  unfold driveOut
  generalize (constraintRows r.tableau).foldl exchange (r, false) = out at hexchanged ⊢
  obtain ⟨s, pivoted⟩ := out
  cases pivoted with
  | true => exact hexchanged
  | false => exact (iterations_removeRedundant _ 1 s).trans hexchanged

theorem iterations_le_primalStep (r : Run τ α) : r.iterations ≤ r.primalStep.1.iterations := by
  unfold primalStep
  split
  next => exact (iterations_driveOut r).ge
  next column _ =>
    split
    next =>
      exact (iterations_driveOut
        { r.note (.unboundedColumn column) with state := .unbounded }).ge
    next =>
      dsimp only
      split
      · exact Nat.le_refl _
      · exact Nat.le_succ _

theorem iterations_le_repairRows (rows : List Nat) (r : Run τ α) (pivoted : Bool) :
    r.iterations ≤ (repairRows rows r pivoted).1.iterations := by
  induction rows generalizing r pivoted with
  | nil => exact Nat.le_refl _
  | cons row rest ih =>
    unfold repairRows
    split
    · split
      next => exact ih r pivoted
      next column _ =>
        dsimp only
        split
        · exact Nat.le_refl _
        · have hpivoted := ih ({ r with
            guard := r.guard.record row
            iterations := r.iterations + 1 }.pivot .dual row column) true
          exact Nat.le_of_succ_le hpivoted
    · exact ih r pivoted

theorem iterations_le_dual (r : Run τ α) : r.iterations ≤ r.dual.iterations := by
  unfold dual
  split
  · exact rounds_preserves (I := fun s : Run τ α => r.iterations ≤ s.iterations)
      (fun s hs => hs.trans (iterations_le_repairRows _ s false)) _ _ (Nat.le_refl _)
  · exact Nat.le_refl _

end Run

namespace Checked

open CyclingGuard

variable {τ : Type} {n m t before row column : Nat}

/-- What a step makes of a run, if its counts fit. -/
def fitting (t : Nat) : Run τ Rat × Bool → Option (Run τ Rat × Bool) :=
  Option.guard (countsFit t ·.1.iterations)

theorem fitting_pos {out : Run τ Rat × Bool} (h : countsFit t out.1.iterations = true) :
    fitting t out = some out := Option.guard_pos h

theorem fitting_neg {out : Run τ Rat × Bool} (h : ¬countsFit t out.1.iterations = true) :
    fitting t out = none := Option.guard_eq_none_iff.2 (Bool.eq_false_iff.2 h)

variable [Tableau τ Rat] {r : Run τ Rat}

/-- A counted pivot succeeds if all counts fit afterwards. -/
theorem countedPivot_eq (h : r.Fits) (hshaped : r.Shaped n m t) {indices : Finset Nat}
    (hpaced : r.Paced indices before) (hfit : countsFit t r.iterations = true) {index : Nat}
    (hindex : index ∈ indices) (cycled : Event) (phase : Phase)
    (hrow : row ∈ constraintRows r.tableau) (hcolumn : column < r.nrVariables)
    (hne : get r.tableau row column ≠ 0) :
    countedPivot r index cycled phase row column =
      fitting t (r.counted index cycled phase row column) := by
  have hidle := hpaced.idle
  have hmax := hpaced.tallies.le_maxCount index hindex
  have hpivot := pivotRun_eq (r := { r with
    guard := r.guard.record index, iterations := r.iterations + 1 })
    (h.agrees ⟨r.guard.record index, r.state, r.iterations + 1, rfl⟩) phase hrow hcolumn hne
  unfold countedPivot
  dsimp only
  by_cases hten : 10 * t < countLimit
  · have hcount : r.guard.count index + 1 < countLimit := by
      simp only [CyclingGuard.isTripped, Bool.or_eq_false_iff, decide_eq_false_iff_not,
        hshaped.threshold] at hidle
      omega
    rw [increment, if_pos hcount, isTripped?_eq (hshaped.threshold ▸ hten)]
    dsimp only [Option.bind_eq_bind, Option.bind_some]
    cases htrip : (r.guard.record index).isTripped with
    | true =>
      rw [Run.counted_of_tripped htrip, if_pos rfl]
      exact (fitting_pos hfit).symm
    | false =>
      rw [Run.counted_of_idle htrip, if_neg Bool.false_ne_true, increment]
      by_cases hlt : r.iterations + 1 < countLimit
      · rw [if_pos hlt, Option.bind_some, hpivot]
        exact (fitting_pos (countsFit_iff.2 fun _ => ⟨hten, hlt⟩)).symm
      · rw [if_neg hlt]
        exact (fitting_neg fun hnext => hlt (countsFit_iff.1 hnext (Nat.succ_pos _)).2).symm
  · -- a run that pivoted before would not have fit
    have hzero : r.iterations = 0 := by
      by_contra hne
      exact hten (countsFit_iff.1 hfit (Nat.pos_of_ne_zero hne)).1
    have htotal : r.guard.total indices = 0 := by
      have := hpaced.iterations
      omega
    obtain ⟨hnone, htrip⟩ := isTripped?_first hpaced.tallies hidle htotal
      (hshaped.threshold ▸ Nat.not_lt.1 hten) hindex
    rw [hnone, Run.counted_of_idle htrip]
    exact (Option.bind_fun_none _).trans
      (fitting_neg fun hnext => hten (countsFit_iff.1 hnext (Nat.succ_pos _)).1).symm

end Checked

end LinProg
