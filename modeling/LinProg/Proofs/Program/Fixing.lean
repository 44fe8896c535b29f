import LinProg.Proofs.Number.Denoting
import Mathlib.Tactic.Linarith

/-!
# Fixed and bounded variables

A program whose variable was fixed has the points of the original program that take the value, and
is worth the same there (`feasible_fix`, `value_fix`); it doesn't look at the variable any more
(`Ignores`).  A bound cuts off what is beyond it (`feasible_addBound`).
-/

namespace LinProg

open Denoting

variable {n : Nat}

/-! ## Scalar products -/

theorem entry_set (row : Vector Rat n) (v w : Fin n) (a : Rat) :
    (row.set v a v.isLt).get w = if v = w then a else row.get w := by
  show (row.set v a v.isLt)[w.val] = if v = w then a else row[w.val]
  rw [Vector.getElem_set]
  simp only [Fin.ext_iff]

theorem dot_set (row : Vector Rat n) (v : Fin n) (a : Rat) (z : Fin n → Rat) :
    dot (row.set v a v.isLt) z = dot row z + (a - row.get v) * z v := by
  have hterm (w : Fin n) : (row.set v a v.isLt).get w * z w =
      row.get w * z w + if v = w then (a - row.get v) * z v else 0 := by
    rw [entry_set]
    split
    next h => subst h; ring
    next => ring
  simp only [dot, hterm, Finset.sum_add_distrib, Finset.sum_ite_eq, Finset.mem_univ, if_true]

theorem dot_zero (z : Fin n → Rat) : dot (Vector.replicate n 0) z = 0 := by
  refine Finset.sum_eq_zero fun w _ => ?_
  change (Vector.replicate n (0 : Rat))[w.val] * z w = 0
  rw [Vector.getElem_replicate, zero_mul]

/-- Entries that differ count for nothing where the row is zero. -/
theorem dot_congr {row : Vector Rat n} {x y : Fin n → Rat}
    (h : ∀ v, y v = x v ∨ row.get v = 0) : dot row y = dot row x := by
  refine Finset.sum_congr rfl fun v _ => ?_
  rcases h v with h | h <;> rw [h]
  rw [zero_mul, zero_mul]

theorem Relation.holds_shift (r : Relation) (a b t : Rat) :
    r.Holds (a + t) b ↔ r.Holds a (b - t) := by
  cases r <;> simp only [Holds]
  · exact eq_sub_iff_add_eq.symm
  · exact sub_le_iff_le_add.symm
  · exact le_sub_iff_add_le.symm

/-! ## Reading -/

section Reading

variable {α : Type} [Integral α] [Denoting α]

def Constraint.read (c : Constraint α n) : Constraint Rat n := c.map toRat

theorem entry_read (row : Vector α n) (v : Fin n) : (row.map toRat).get v = toRat (row.get v) := by
  show (row.map toRat)[v.val] = toRat row[v.val]
  rw [Vector.getElem_map]

theorem read_set (row : Vector α n) (v : Fin n) (a : α) :
    (row.set v a v.isLt).map toRat = (row.map toRat).set v (toRat a) v.isLt := by
  rw [Vector.map_set]

theorem Constraint.holds_read {c : Constraint α n} {z : Fin n → Rat} :
    c.read.Holds z ↔ c.relation.Holds (dot (c.coefficients.map toRat) z) (toRat c.rhs) :=
  Iff.rfl

theorem LinearProgram.satisfies_read {lp : LinearProgram α n} {z : Fin n → Rat} :
    lp.read.Satisfies z ↔ ∀ c ∈ lp.constraints, c.read.Holds z :=
  List.forall_mem_map

theorem LinearProgram.feasible_read {lp : LinearProgram α n} {z : Fin n → Rat} :
    lp.read.Feasible z ↔
      (∀ c ∈ lp.constraints, c.read.Holds z) ∧ ∀ v, v ∉ lp.free.members → 0 ≤ z v :=
  feasible_iff.trans (and_congr_left' satisfies_read)

theorem LinearProgram.value_read (lp : LinearProgram α n) (z : Fin n → Rat) :
    lp.read.value z = toRat lp.constant + dot (lp.cost.map toRat) z :=
  rfl

end Reading

/-! ## Fixed variables -/

section Fixing

variable {α : Type} [Integral α] [Denoting α]

/-- Nothing is rounded when the variable is fixed. -/
structure LinearProgram.FixesExactly (lp : LinearProgram α n) (v : Fin n) (value : α) : Prop where
  constant :
    toRat (lp.constant + value * lp.cost.get v) =
      toRat lp.constant + toRat value * toRat (lp.cost.get v)
  rhs : ∀ c ∈ lp.constraints,
    toRat (c.rhs - value * c.coefficients.get v) =
      toRat c.rhs - toRat value * toRat (c.coefficients.get v)

instance (lp : LinearProgram α n) (v : Fin n) (value : α) : Decidable (lp.FixesExactly v value) :=
  decidable_of_iff
    (toRat (lp.constant + value * lp.cost.get v) =
        toRat lp.constant + toRat value * toRat (lp.cost.get v) ∧
      ∀ c ∈ lp.constraints, toRat (c.rhs - value * c.coefficients.get v) =
        toRat c.rhs - toRat value * toRat (c.coefficients.get v))
    ⟨fun h => ⟨h.1, h.2⟩, fun h => ⟨h.constant, h.rhs⟩⟩

theorem LinearProgram.fixesExactly_rat (lp : LinearProgram Rat n) (v : Fin n) (value : Rat) :
    lp.FixesExactly v value :=
  ⟨rfl, fun _ _ => rfl⟩

theorem Constraint.holds_fix {c : Constraint α n} {v : Fin n} {value : α} {z : Fin n → Rat}
    (hexact : toRat (c.rhs - value * c.coefficients.get v) =
      toRat c.rhs - toRat value * toRat (c.coefficients.get v))
    (hz : z v = toRat value) : (c.fix v value).read.Holds z ↔ c.read.Holds z := by
  unfold fix
  split
  next => exact Iff.rfl
  next =>
    rw [holds_read, holds_read]
    dsimp only
    rw [read_set, dot_set, hexact, entry_read, toRat_zero, hz, ← Relation.holds_shift]
    ring_nf

theorem toRat_set (row : Vector α n) (v w : Fin n) :
    toRat ((row.set v 0 v.isLt).get w) = if v = w then 0 else toRat (row.get w) := by
  rw [← entry_read, read_set, entry_set, toRat_zero, entry_read]

theorem Constraint.coefficient_fix (c : Constraint α n) (v w : Fin n) (value : α) :
    toRat ((c.fix v value).coefficients.get w) =
      if v = w then 0 else toRat (c.coefficients.get w) := by
  unfold fix
  split
  next h =>
    split
    next heq => exact heq ▸ toRat_of_isZero h
    next => rfl
  next => exact toRat_set _ _ _

theorem LinearProgram.satisfies_fix {lp : LinearProgram α n} {v : Fin n} {value : α}
    {z : Fin n → Rat} (hexact : lp.FixesExactly v value) (hz : z v = toRat value) :
    (lp.fix v value).read.Satisfies z ↔ lp.read.Satisfies z := by
  rw [satisfies_read, satisfies_read]
  constructor
  · intro h c hc
    exact (Constraint.holds_fix (hexact.rhs c hc) hz).1 (h _ (List.mem_map.2 ⟨c, hc, rfl⟩))
  · intro h c' hc'
    obtain ⟨c, hc, rfl⟩ := List.mem_map.1 hc'
    exact (Constraint.holds_fix (hexact.rhs c hc) hz).2 (h c hc)

/-- A program whose variable was fixed is satisfied by the same points that take the value. -/
theorem LinearProgram.feasible_fix {lp : LinearProgram α n} {v : Fin n} {value : α}
    {z : Fin n → Rat} (hexact : lp.FixesExactly v value) (hz : z v = toRat value) :
    (lp.fix v value).read.Feasible z ↔ lp.read.Feasible z := by
  rw [feasible_iff, feasible_iff, satisfies_fix hexact hz]
  exact Iff.rfl

theorem LinearProgram.value_fix {lp : LinearProgram α n} {v : Fin n} {value : α}
    {z : Fin n → Rat} (hexact : lp.FixesExactly v value) (hz : z v = toRat value) :
    (lp.fix v value).read.value z = lp.read.value z := by
  rw [value_read, value_read]
  dsimp only [fix]
  rw [read_set, dot_set, hexact.constant, entry_read, toRat_zero, hz]
  ring

/-! ## Bounded variables -/

theorem Constraint.holds_bound {v : Fin n} {r : Relation} {rhs : α} {z : Fin n → Rat} :
    (Constraint.bound v r rhs).read.Holds z ↔ r.Holds (z v) (toRat rhs) := by
  have hdot : dot (((Vector.replicate n (0 : α)).set v 1 v.isLt).map toRat) z = z v := by
    rw [read_set, dot_set, Vector.map_replicate, toRat_zero, toRat_one, dot_zero]
    show 0 + (1 - (Vector.replicate n (0 : Rat))[v.val]) * z v = z v
    rw [Vector.getElem_replicate]
    ring
  rw [holds_read]
  dsimp only [bound]
  rw [hdot]

theorem LinearProgram.satisfies_addBound {lp : LinearProgram α n} {v : Fin n} {r : Relation}
    {rhs : α} {z : Fin n → Rat} :
    (lp.addBound v r rhs).read.Satisfies z ↔
      lp.read.Satisfies z ∧ r.Holds (z v) (toRat rhs) := by
  rw [satisfies_read, satisfies_read, ← Constraint.holds_bound]
  simp only [addBound, List.forall_mem_append, List.forall_mem_singleton]

theorem LinearProgram.feasible_addBound {lp : LinearProgram α n} {v : Fin n} {r : Relation}
    {rhs : α} {z : Fin n → Rat} :
    (lp.addBound v r rhs).read.Feasible z ↔ lp.read.Feasible z ∧ r.Holds (z v) (toRat rhs) := by
  rw [feasible_iff, feasible_iff, satisfies_addBound]
  exact and_right_comm

theorem LinearProgram.value_addBound (lp : LinearProgram α n) (v : Fin n) (r : Relation) (rhs : α)
    (z : Fin n → Rat) : (lp.addBound v r rhs).read.value z = lp.read.value z :=
  rfl

end Fixing

/-! ## Variables that don't matter -/

namespace LinearProgram

structure Ignores (lp : LinearProgram Rat n) (v : Fin n) : Prop where
  cost : lp.cost.get v = 0
  rows : ∀ c ∈ lp.constraints, c.coefficients.get v = 0

/-- Variables that a program ignores may take any nonnegative value. -/
theorem Feasible.congr {lp : LinearProgram Rat n} {x y : Fin n → Rat} (hx : lp.Feasible x)
    (h : ∀ v, y v = x v ∨ lp.Ignores v ∧ 0 ≤ y v) : lp.Feasible y := by
  constructor
  · intro c hc
    have hdot : dot c.coefficients y = dot c.coefficients x :=
      dot_congr fun v => (h v).imp id fun hv => hv.1.rows c hc
    rw [Constraint.Holds, hdot]
    exact hx.rows c hc
  · intro v hv
    rcases h v with heq | ⟨-, hnonneg⟩
    · rw [heq]
      exact hx.signs v hv
    · exact hnonneg

theorem value_congr {lp : LinearProgram Rat n} {x y : Fin n → Rat}
    (h : ∀ v, y v = x v ∨ lp.Ignores v ∧ 0 ≤ y v) : lp.value y = lp.value x := by
  rw [value, value, dot_congr fun v => (h v).imp id fun hv => hv.1.cost]

variable {α : Type} [Integral α] [Denoting α]

theorem ignores_read {lp : LinearProgram α n} {v : Fin n} :
    lp.read.Ignores v ↔
      toRat (lp.cost.get v) = 0 ∧ ∀ c ∈ lp.constraints, toRat (c.coefficients.get v) = 0 := by
  constructor
  · intro h
    refine ⟨(entry_read lp.cost v).symm.trans h.cost, fun c hc => ?_⟩
    exact (entry_read c.coefficients v).symm.trans (h.rows c.read (List.mem_map.2 ⟨c, hc, rfl⟩))
  · rintro ⟨hcost, hrows⟩
    refine ⟨(entry_read lp.cost v).trans hcost, fun c' hc' => ?_⟩
    obtain ⟨c, hc, rfl⟩ := List.mem_map.1 hc'
    exact (entry_read c.coefficients v).trans (hrows c hc)

theorem ignores_fix {lp : LinearProgram α n} {v w : Fin n} {value : α}
    (h : v = w ∨ lp.read.Ignores w) : (lp.fix v value).read.Ignores w := by
  rw [ignores_read] at h ⊢
  constructor
  · dsimp only [fix]
    rw [toRat_set]
    split
    next => rfl
    next hne => exact (h.resolve_left hne).1
  · intro c' hc'
    obtain ⟨c, hc, rfl⟩ := List.mem_map.1 hc'
    rw [Constraint.coefficient_fix]
    split
    next => rfl
    next hne => exact (h.resolve_left hne).2 c hc

theorem Ignores.addBound {lp : LinearProgram α n} {v w : Fin n} (h : lp.read.Ignores w)
    (hne : v ≠ w) (r : Relation) (rhs : α) : (lp.addBound v r rhs).read.Ignores w := by
  rw [ignores_read] at h ⊢
  refine ⟨h.1, fun c hc => ?_⟩
  rcases List.mem_append.1 hc with hc | hc
  · exact h.2 c hc
  · obtain rfl := List.mem_singleton.1 hc
    dsimp only [Constraint.bound]
    rw [← entry_read, read_set, entry_set, if_neg hne, Vector.map_replicate, toRat_zero]
    exact Vector.getElem_replicate _

end LinearProgram

end LinProg
