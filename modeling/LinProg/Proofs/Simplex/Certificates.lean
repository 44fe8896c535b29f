import LinProg.Proofs.Simplex.Canonical
import Mathlib.Tactic.Linarith

/-!
# What can be read off a tableau

A sound board tells four things about its program.  A row that has no solution among nonnegative
points shows that the program is infeasible (`infeasible_of_negative`, `infeasible_of_positive`).
Without artificial columns and with nonnegative right hand sides the basic point is feasible
(`Sound.basicPoint_feasible`); without profitable columns no point is worth more than it
(`Represents.value_le`).  A profitable column without positive values is a direction in which every
feasible point can be moved on and on (`Sound.isUnbounded`).

`spread` makes a point out of values for the rows by giving them to the basic variables.  Each row
takes the value of its own basic variable there, and the cost row takes nothing.
-/

namespace LinProg

namespace Board

variable {τ : Type} [Tableau τ Rat] {n : Nat}

open Tableau

/-- The basic variables take the values of their rows, all others are zero. -/
def spread (b : Board τ Rat) (w : Nat → Rat) (j : Nat) : Rat :=
  match (constraintRows b.tableau).find? fun row => b.basic row = some j with
  | some row => w row
  | none => 0

/-- The point that a tableau stands for: each basic variable is the right hand side of its row. -/
def basicPoint (b : Board τ Rat) (j : Nat) : Rat := b.spread (fun row => get b.tableau row b.rhs) j

def Profitless (b : Board τ Rat) : Prop := ∀ j < b.nrVariables, get b.tableau 0 j ≤ 0

def HasRay (b : Board τ Rat) : Prop :=
  ∃ c < b.nrVariables, 0 < get b.tableau 0 c ∧
    ∀ row ∈ constraintRows b.tableau, get b.tableau row c ≤ 0

theorem spread_nonneg {b : Board τ Rat} {w : Nat → Rat}
    (hw : ∀ row ∈ constraintRows b.tableau, 0 ≤ w row) (j : Nat) : 0 ≤ b.spread w j := by
  unfold spread
  split
  next row h => exact hw row (List.mem_of_find?_eq_some h)
  next => exact le_rfl

variable {p : StandardForm Rat n} {b : Board τ Rat}

/-- Entry by entry, a constraint row meets only its own basic variable. -/
theorem Sound.get_mul_spread (h : Sound p b) (w : Nat → Rat) {i j : Nat}
    (hi : i < nrRows b.tableau) (hj : j < n) :
    get b.tableau i j * b.spread w j = if 0 < i ∧ b.basic i = some j then w i else 0 := by
  unfold spread
  split
  next row hfind =>
    have hrow := List.mem_of_find?_eq_some hfind
    have hbasic : b.basic row = some j := by simpa using List.find?_some hfind
    have hunit := h.unit_of_lt hrow hbasic hj
    by_cases hir : i = row
    · rw [hir, hunit.self (mem_constraintRows.1 hrow).2, one_mul,
        if_pos ⟨(mem_constraintRows.1 hrow).1, hbasic⟩]
    · rw [hunit.of_ne hi hir, zero_mul, if_neg]
      rintro ⟨h0, hij⟩
      have := h.unit_of_lt (mem_constraintRows.2 ⟨h0, hi⟩) hij hj
      exact hir (this.unique hunit hi)
  next hnone =>
    rw [mul_zero, if_neg]
    rintro ⟨h0, hij⟩
    have := List.find?_eq_none.1 hnone i (mem_constraintRows.2 ⟨h0, hi⟩)
    simp [hij] at this

theorem Sound.sum_spread_cost (h : Sound p b) (w : Nat → Rat) :
    ∑ j : Fin n, get b.tableau 0 j * b.spread w j = 0 := by
  refine Finset.sum_eq_zero fun j _ => ?_
  rw [h.get_mul_spread w h.represents.costRow j.isLt]
  simp

theorem Sound.sum_spread_of_lt (h : Sound p b) (w : Nat → Rat) {i c : Nat}
    (hi : i ∈ constraintRows b.tableau) (hc : b.basic i = some c) (hcn : c < n) :
    ∑ j : Fin n, get b.tableau i j * b.spread w j = w i := by
  have hi' := mem_constraintRows.1 hi
  rw [Finset.sum_eq_single ⟨c, hcn⟩]
  · rw [h.get_mul_spread w hi'.2 hcn, if_pos ⟨hi'.1, hc⟩]
  · intro j _ hj
    rw [h.get_mul_spread w hi'.2 j.isLt, if_neg]
    rintro ⟨-, hij⟩
    rw [hc, Option.some.injEq] at hij
    exact hj (Fin.ext hij.symm)
  · simp

theorem Sound.sum_spread_of_artificial (h : Sound p b) (w : Nat → Rat) {i : Nat}
    (hi : i ∈ constraintRows b.tableau) (ha : b.isArtificial (b.basic i) = true) :
    ∑ j : Fin n, get b.tableau i j * b.spread w j = 0 := by
  refine Finset.sum_eq_zero fun j _ => ?_
  rw [h.get_mul_spread w (mem_constraintRows.1 hi).2 j.isLt, if_neg]
  rintro ⟨-, hij⟩
  rw [h.isArtificial_of_lt hij j.isLt] at ha
  exact Bool.false_ne_true ha

/-! ## Infeasible rows -/

/-- Nonnegative values can't add up to a negative right hand side. -/
theorem infeasible_of_negative (h : Sound p b) {row : Nat} (hrow : row ∈ constraintRows b.tableau)
    (hrhs : get b.tableau row n < 0) (hall : ∀ j < n, 0 ≤ get b.tableau row j) :
    ¬∃ x, p.Feasible x := by
  rintro ⟨x, hx⟩
  have h0 := h.represents.excess_eq_zero hx.rows hrow
  have hsum : 0 ≤ ∑ j : Fin n, get b.tableau row j * x j :=
    Finset.sum_nonneg fun j _ => mul_nonneg (hall j j.isLt) (hx.nonneg j)
  unfold excess at h0
  linarith

/-- Nonpositive values can't add up to a positive right hand side. -/
theorem infeasible_of_positive (h : Sound p b) {row : Nat} (hrow : row ∈ constraintRows b.tableau)
    (hrhs : 0 < get b.tableau row n) (hall : ∀ j < n, get b.tableau row j ≤ 0) :
    ¬∃ x, p.Feasible x := by
  rintro ⟨x, hx⟩
  have h0 := h.represents.excess_eq_zero hx.rows hrow
  have hsum : ∑ j : Fin n, get b.tableau row j * x j ≤ 0 :=
    Finset.sum_nonpos fun j _ => mul_nonpos_of_nonpos_of_nonneg (hall j j.isLt) (hx.nonneg j)
  unfold excess at h0
  linarith

/-! ## Bounds and directions -/

/-- Without profitable columns no feasible point is worth more than the tableau says. -/
theorem Sound.value_le (h : Sound p b) (hb : b.Profitless) {x : Fin n → Rat} (hx : p.Feasible x) :
    p.value x ≤ -get b.tableau 0 n := by
  have hsum : ∑ j : Fin n, get b.tableau 0 j * x j ≤ 0 :=
    Finset.sum_nonpos fun j _ =>
      mul_nonpos_of_nonpos_of_nonneg (hb j (h.nrVariables ▸ j.isLt)) (hx.nonneg j)
  rw [← h.represents.cost x hx.rows, excess]
  linarith

theorem Sound.excess_basicPoint (h : Sound p b) :
    excess b.tableau n 0 (fun j => b.basicPoint j) = -get b.tableau 0 n := by
  simp only [excess, basicPoint, h.sum_spread_cost]
  ring

theorem Sound.basicPoint_feasible (h : Sound p b) (hfull : b.IsFull)
    (hrhs : ∀ row ∈ constraintRows b.tableau, 0 ≤ get b.tableau row n)
    (hart : ∀ row ∈ constraintRows b.tableau, b.isArtificial (b.basic row) = true →
      get b.tableau row n = 0) :
    p.Feasible fun j => b.basicPoint j := by
  refine ⟨(h.represents.rows _).1 fun row hrow => ?_, fun j => ?_⟩
  · simp only [excess, basicPoint]
    rcases h.basic_cases hfull hrow with ⟨c, hcn, hc⟩ | ha
    · rw [h.sum_spread_of_lt _ hrow hc hcn, h.rhs, sub_self]
    · rw [h.sum_spread_of_artificial _ hrow ha, hart row hrow ha, sub_zero]
  · exact spread_nonneg (fun row hrow => by rw [h.rhs]; exact hrhs row hrow) j

theorem Sound.value_basicPoint (h : Sound p b) (hx : p.Feasible fun j => b.basicPoint j) :
    p.value (fun j => b.basicPoint j) = -get b.tableau 0 n := by
  rw [← h.represents.cost _ hx.rows, h.excess_basicPoint]

/-- A feasible point stays feasible when it is moved along a ray, and gains without limit. -/
theorem Sound.isUnbounded (h : Sound p b) (hfull : b.IsFull) (hart : ¬b.HasArtificial)
    (hray : b.HasRay) {x : Fin n → Rat} (hx : p.Feasible x) : p.IsUnbounded := by
  obtain ⟨c, hcn, hprofit, hcol⟩ := hray
  rw [h.nrVariables] at hcn
  -- the entering variable grows by one, and the basic ones make up for it
  let w : Nat → Rat := fun row => -get b.tableau row c
  let d : Fin n → Rat := fun j => b.spread w j + if j.val = c then 1 else 0
  have hd0 (j : Fin n) : 0 ≤ d j := by
    have := spread_nonneg (b := b) (w := w) (fun row hrow => neg_nonneg.2 (hcol row hrow)) j
    dsimp only [d]
    split <;> linarith
  have hsum (i : Nat) : ∑ j : Fin n, get b.tableau i j * d j =
      (∑ j : Fin n, get b.tableau i j * b.spread w j) + get b.tableau i c := by
    simp only [d, mul_add, Finset.sum_add_distrib, mul_ite, mul_one, mul_zero]
    congr 1
    rw [Finset.sum_eq_single ⟨c, hcn⟩ (fun j _ hj => if_neg fun e => hj (Fin.ext e)) (by simp)]
    simp
  have hmove (i : Nat) (t : Rat) : excess b.tableau n i (fun j : Fin n => x j + t * d j) =
      excess b.tableau n i x + t * ∑ j : Fin n, get b.tableau i j * d j := by
    simp only [excess, mul_add, Finset.sum_add_distrib, Finset.mul_sum]
    have hcomm (j : Fin n) : get b.tableau i j * (t * d j) = t * (get b.tableau i j * d j) :=
      mul_left_comm _ _ _
    simp only [hcomm]
    ring
  have hfeasible (t : Rat) (ht : 0 ≤ t) : p.Feasible fun j => x j + t * d j := by
    refine ⟨(h.represents.rows _).1 fun row hrow => ?_, fun j => ?_⟩
    · rcases h.basic_cases hfull hrow with ⟨c', hcn', hc'⟩ | ha
      · rw [hmove, hsum, h.sum_spread_of_lt w hrow hc' hcn',
          h.represents.excess_eq_zero hx.rows hrow]
        simp [w]
      · exact absurd ⟨row, hrow, ha⟩ hart
    · exact add_nonneg (hx.nonneg j) (mul_nonneg ht (hd0 j))
  intro bound
  -- the gain is `t` times the profit of the column
  let t := max 0 ((bound - p.value x) / get b.tableau 0 c + 1)
  have ht : (bound - p.value x) / get b.tableau 0 c < t :=
    lt_of_lt_of_le (lt_add_one _) (le_max_right _ _)
  refine ⟨_, hfeasible t (le_max_left _ _), ?_⟩
  rw [← h.represents.cost _ (hfeasible t (le_max_left _ _)).rows, hmove, hsum,
    h.sum_spread_cost w, zero_add, h.represents.cost x hx.rows]
  rw [div_lt_iff₀ hprofit] at ht
  linarith

end Board

end LinProg
