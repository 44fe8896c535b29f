import LinProg.Proofs.Simplex.Guard

/-!
# What a guard has seen

A guard never looks back at its pivots, it keeps a few numbers up to date instead.  They are those
of the pivots since the last reset (`Sees`), whatever was recorded and forgotten before, and also
with indices beyond the watched ones.  So a guard trips exactly if these pivots go around in
circles.
-/

namespace LinProg.CyclingGuard

inductive Call
  | record (index : Nat)
  | reset
  deriving DecidableEq, Repr

def call (g : CyclingGuard) : Call → CyclingGuard
  | .record index => g.record index
  | .reset => g.reset

/-- The indices recorded since the last reset, the latest first, with one more call. -/
def Call.remember (recorded : List Nat) : Call → List Nat
  | .record index => index :: recorded
  | .reset => []

def sinceReset (calls : List Call) : List Nat := calls.foldl Call.remember []

def repeating (times : Nat) (recorded : List Nat) : Finset Nat :=
  recorded.toFinset.filter fun i => times ≤ recorded.count i

/-- Half of the indices repeat, or one index does ten times over. -/
def GoesAround (nrWatched times : Nat) (recorded : List Nat) : Prop :=
  max 1 (nrWatched / 2) ≤ (repeating times recorded).card ∨ ∃ i, 10 * times ≤ recorded.count i

theorem mem_repeating {times : Nat} {recorded : List Nat} {i : Nat} (h : 0 < times) :
    i ∈ repeating times recorded ↔ times ≤ recorded.count i := by
  rw [repeating, Finset.mem_filter, List.mem_toFinset, ← List.count_pos_iff]
  omega

/-- An index starts to repeat once, when its count is the number of times. -/
theorem card_repeating_cons {times : Nat} (h : 0 < times) (recorded : List Nat) (i : Nat) :
    (repeating times (i :: recorded)).card =
      if recorded.count i + 1 = times then (repeating times recorded).card + 1
      else (repeating times recorded).card := by
  split
  next hnow =>
    have hnew : i ∉ repeating times recorded := by
      rw [mem_repeating h]
      omega
    rw [← Finset.card_insert_of_notMem hnew]
    congr 1
    ext j
    simp only [Finset.mem_insert, mem_repeating h, List.count_cons, beq_iff_eq]
    split
    next hij => subst hij; omega
    next hij => simp only [Nat.add_zero, Ne.symm hij, false_or]
  next hnot =>
    congr 1
    ext j
    simp only [mem_repeating h, List.count_cons, beq_iff_eq]
    split
    next hij => subst hij; omega
    next => rfl

/-! ## Keeping up -/

/-- A guard's numbers are those of the recorded indices. -/
structure Sees (nrWatched times : Nat) (g : CyclingGuard) (recorded : List Nat) : Prop where
  nrWatched : g.nrWatched = nrWatched
  threshold : g.threshold = times
  count (i : Nat) : g.count i = recorded.count i
  reached : g.reached = (repeating times recorded).card
  le_maxCount (n : Nat) : n ≤ g.maxCount ↔ ∃ i, n ≤ recorded.count i

variable {nrWatched times : Nat} {g : CyclingGuard} {recorded : List Nat}

theorem Blank.sees (h : g.Blank) : Sees g.nrWatched g.threshold g [] where
  nrWatched := rfl
  threshold := rfl
  count := h.count
  reached := h.reached
  le_maxCount n := by
    rw [h.maxCount]
    exact ⟨fun hn => ⟨0, hn⟩, fun ⟨_, hn⟩ => hn⟩

namespace Sees

theorem record (h : Sees nrWatched times g recorded) (htimes : 0 < times) (index : Nat) :
    Sees nrWatched times (g.record index) (index :: recorded) where
  nrWatched := h.nrWatched
  threshold := h.threshold
  count i := by
    rw [count_record, h.count, h.count]
    split
    next hi => rw [hi, List.count_cons_self]
    next hi => rw [List.count_cons_of_ne (Ne.symm hi)]
  reached := by
    rw [card_repeating_cons htimes, ← h.reached, ← h.count, ← h.threshold]
    rfl
  le_maxCount n := by
    have hmax : n ≤ (g.record index).maxCount ↔
        (∃ i, n ≤ recorded.count i) ∨ n ≤ recorded.count index + 1 := by
      rw [← h.le_maxCount, ← h.count]
      exact le_max_iff
    rw [hmax]
    constructor
    · rintro (⟨i, hi⟩ | hindex)
      · exact ⟨i, hi.trans (List.count_le_count_cons ..)⟩
      · exact ⟨index, by rwa [List.count_cons_self]⟩
    · rintro ⟨i, hi⟩
      by_cases heq : i = index
      · rw [heq, List.count_cons_self] at hi
        exact .inr hi
      · rw [List.count_cons_of_ne (Ne.symm heq)] at hi
        exact .inl ⟨i, hi⟩

theorem reset (h : Sees nrWatched times g recorded) (htimes : 0 < times) :
    Sees nrWatched times g.reset [] := by
  have hblank := blank_reset (h.threshold ▸ htimes : 0 < g.threshold)
  have hsees := hblank.sees
  rwa [show g.reset.nrWatched = nrWatched from h.nrWatched,
    show g.reset.threshold = times from h.threshold] at hsees

theorem call (h : Sees nrWatched times g recorded) (htimes : 0 < times) (c : Call) :
    Sees nrWatched times (g.call c) (c.remember recorded) :=
  match c with
  | .record index => h.record htimes index
  | .reset => h.reset htimes

theorem foldl_call (h : Sees nrWatched times g recorded) (htimes : 0 < times) (calls : List Call) :
    Sees nrWatched times (calls.foldl CyclingGuard.call g)
      (calls.foldl Call.remember recorded) := by
  induction calls generalizing g recorded with
  | nil => exact h
  | cons c rest ih => exact ih (h.call htimes c)

theorem isTripped_iff (h : Sees nrWatched times g recorded) :
    g.isTripped = true ↔ GoesAround nrWatched times recorded := by
  rw [isTripped, Bool.or_eq_true, decide_eq_true_iff, decide_eq_true_iff, h.nrWatched, h.threshold,
    h.reached, h.le_maxCount, Nat.max_comm]
  rfl

end Sees

/-! ## Staying tripped -/

theorem isTripped_record (h : g.isTripped = true) (index : Nat) :
    (g.record index).isTripped = true := by
  rw [isTripped, Bool.or_eq_true, decide_eq_true_iff, decide_eq_true_iff] at h ⊢
  refine h.imp (fun hreached => hreached.trans ?_) (fun hmax => hmax.trans (Nat.le_max_left ..))
  show g.reached ≤ if g.count index + 1 = g.threshold then g.reached + 1 else g.reached
  split
  next => exact Nat.le_succ _
  next => exact Nat.le_refl _

theorem isTripped_foldl_record (h : g.isTripped = true) (indices : List Nat) :
    (indices.foldl record g).isTripped = true := by
  induction indices generalizing g with
  | nil => exact h
  | cons i rest ih => exact ih (isTripped_record h i)

/-- An index that isn't watched trips a guard after a reset, though not before. -/
example :
    let calls : List Call := [.record 5, .reset, .record 5]
    ((calls.foldl call (new 2 2)).isTripped, ((calls.foldl call (new 2 2)).record 5).isTripped) =
      (false, true) := by
  decide +kernel

end LinProg.CyclingGuard
