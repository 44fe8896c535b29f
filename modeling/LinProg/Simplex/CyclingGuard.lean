import LinProg.Numeral

/-!
# Cycling guard

Degenerate pivots can lead back to a basis that was visited before.  The guard counts how often each
index was pivoted on and trips once many indices were pivoted on repeatedly, or one of them very
often.  It is a heuristic: a program that needs many pivots on few indices trips it too.

The counts are natural numbers here.  `isTripped?` and `countsFit` say where 64 bits are too few for
them.
-/

namespace LinProg

open Numeral (countLimit)

structure CyclingGuard where
  /-- Number of indices that can be pivoted on. -/
  nrWatched : Nat
  /-- The count from which an index counts as repeating, at least one. -/
  threshold : Nat
  /-- Pivots per index; indices beyond the end have none yet. -/
  counts : Array Nat
  /-- Number of indices whose count reached the threshold. -/
  reached : Nat
  /-- The largest count. -/
  maxCount : Nat
  deriving DecidableEq, Repr

namespace CyclingGuard

def new (nrWatched threshold : Nat) : CyclingGuard :=
  ⟨nrWatched, max threshold 1, Array.replicate nrWatched 0, 0, 0⟩

def count (g : CyclingGuard) (index : Nat) : Nat := g.counts.getD index 0

/-- Half of the indices repeat, or one index does ten times over. -/
def isTripped (g : CyclingGuard) : Bool :=
  max (g.nrWatched / 2) 1 ≤ g.reached || 10 * g.threshold ≤ g.maxCount

/-- The same with counts of 64 bits: ten times the threshold has to fit if it is asked for. -/
def isTripped? (g : CyclingGuard) : Option Bool :=
  if max (g.nrWatched / 2) 1 ≤ g.reached ∨ 10 * g.threshold < countLimit then
    some g.isTripped
  else
    none

/-- Whether the counts of a run with so many pivots fit 64 bits.  A run without any never asks for
ten times the threshold, since a guard that trips on the first pivot does so for its threshold. -/
def countsFit (threshold pivots : Nat) : Bool :=
  pivots = 0 || 10 * threshold < countLimit && pivots < countLimit

/-- Counts a pivot on an index. -/
def record (g : CyclingGuard) (index : Nat) : CyclingGuard :=
  let count := g.count index + 1
  { g with
    counts := (g.counts.rightpad (index + 1) 0).setIfInBounds index count
    reached := if count = g.threshold then g.reached + 1 else g.reached
    maxCount := max g.maxCount count }

/-- Forgets all pivots, but keeps room for every index that was seen. -/
def reset (g : CyclingGuard) : CyclingGuard :=
  { g with counts := Array.replicate g.counts.size 0, reached := 0, maxCount := 0 }

end CyclingGuard

end LinProg
