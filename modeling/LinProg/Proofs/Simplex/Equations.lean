import LinProg.Proofs.Program.Feasible
import LinProg.Proofs.Tableau.Lawful
import LinProg.Simplex.Run
import Mathlib.Algebra.BigOperators.Field
import Mathlib.Tactic.Ring

/-!
# Tableaus as systems of equations

The first `n` columns of a constraint row and its right hand side are an equation; the cost row is
the objective function less a constant.  `excess` is what both are measured by, and it is linear
in the row, so it follows every row operation.  `Represents` says that a tableau has the solutions
of a program and its objective function on them: it survives pivots, changes of sign, the removal
of rows of zeros and whatever happens to columns behind the right hand side.
-/

namespace LinProg.Tableau

variable {τ : Type} [Tableau τ Rat] {n : Nat}

/-- By how much the first `n` values of a row miss the right hand side at a point. -/
def excess (t : τ) (n i : Nat) (x : Fin n → Rat) : Rat :=
  (∑ j : Fin n, get t i j * x j) - get t i n

/-- A tableau with the solutions of a program, and its objective function on them. -/
structure Represents (p : StandardForm Rat n) (t : τ) : Prop where
  costRow : 0 < nrRows t
  width : n < nrColumns t
  rows : ∀ x, (∀ i ∈ constraintRows t, excess t n i x = 0) ↔ ∀ e ∈ p.equations, e.Holds x
  cost : ∀ x, (∀ e ∈ p.equations, e.Holds x) → excess t n 0 x = p.value x

theorem excess_congr {t u : τ} {i k : Nat} (h : ∀ j ≤ n, get u i j = get t k j)
    (x : Fin n → Rat) : excess u n i x = excess t n k x := by
  simp only [excess, h n le_rfl]
  rw [Finset.sum_congr rfl fun j _ => by rw [h j j.isLt.le]]

theorem excess_of_zero {t : τ} {i : Nat} (h : ∀ j ≤ n, get t i j = 0) (x : Fin n → Rat) :
    excess t n i x = 0 := by
  rw [excess, h n le_rfl, sub_zero]
  exact Finset.sum_eq_zero fun j _ => by rw [h j j.isLt.le, zero_mul]

theorem Represents.excess_eq_zero {p : StandardForm Rat n} {t : τ} (h : Represents p t)
    {x : Fin n → Rat} (hx : ∀ e ∈ p.equations, e.Holds x) {i : Nat} (hi : i ∈ constraintRows t) :
    excess t n i x = 0 :=
  (h.rows x).2 hx i hi

theorem Represents.congr {p : StandardForm Rat n} {t u : τ} (h : Represents p t)
    (hrows : nrRows u = nrRows t) (hwidth : n < nrColumns u)
    (hget : ∀ i, ∀ j ≤ n, get u i j = get t i j) : Represents p u where
  costRow := hrows ▸ h.costRow
  width := hwidth
  rows x := by
    rw [← h.rows x, constraintRows_congr hrows]
    simp only [excess_congr (hget _)]
  cost x hx := by rw [excess_congr (hget 0), h.cost x hx]

variable [LawfulTableau τ]

/-! ## Row operations -/

theorem excess_pivot_self {t : τ} {r c : Nat} (h : get t r c ≠ 0) (x : Fin n → Rat) :
    excess (pivot t r c) n r x = excess t n r x / get t r c := by
  simp only [excess, LawfulTableau.get_pivot t r c _ _ h, if_true, sub_div, Finset.sum_div]
  congr 1
  exact Finset.sum_congr rfl fun j _ => div_mul_eq_mul_div _ _ _

theorem excess_pivot_of_ne {t : τ} {r c i : Nat} (h : get t r c ≠ 0) (hi : i ≠ r)
    (x : Fin n → Rat) :
    excess (pivot t r c) n i x = excess t n i x - get t i c / get t r c * excess t n r x := by
  simp only [excess, LawfulTableau.get_pivot t r c _ _ h, if_neg hi, sub_mul,
    Finset.sum_sub_distrib, mul_sub, Finset.mul_sum]
  have hsum : ∑ j : Fin n, get t i c * (get t r j / get t r c) * x j =
      ∑ j : Fin n, get t i c / get t r c * (get t r j * x j) :=
    Finset.sum_congr rfl fun j _ => by ring
  rw [hsum]
  ring

theorem excess_negateRow (t : τ) (r i : Nat) (x : Fin n → Rat) :
    excess (negateRow t r) n i x = if i = r then -excess t n i x else excess t n i x := by
  simp only [excess, LawfulTableau.get_negateRow]
  split
  · simp only [neg_mul, Finset.sum_neg_distrib]
    ring
  · rfl

theorem excess_removeRow (t : τ) (r i : Nat) (x : Fin n → Rat) :
    excess (removeRow t r) n i x =
      if i < r then excess t n i x else excess t n (i + 1) x := by
  simp only [excess, LawfulTableau.get_removeRow]
  split <;> rfl

/-! ## What keeps a program represented -/

theorem Represents.pivot {p : StandardForm Rat n} {t : τ} (h : Represents p t) {r c : Nat}
    (hr : r ∈ constraintRows t) (h0 : get t r c ≠ 0) : Represents p (pivot t r c) := by
  have hrows : constraintRows (Tableau.pivot t r c) = constraintRows t :=
    constraintRows_congr (by simp)
  refine ⟨by simpa using h.costRow, by simpa using h.width, fun x => ?_, fun x hx => ?_⟩
  · rw [← h.rows x, hrows]
    constructor
    · intro hall i hi
      have hself : excess t n r x = 0 := by
        have := hall r hr
        rw [excess_pivot_self h0, div_eq_zero_iff] at this
        exact this.resolve_right h0
      by_cases hir : i = r
      · rw [hir, hself]
      · have := hall i hi
        rwa [excess_pivot_of_ne h0 hir, hself, mul_zero, sub_zero] at this
    · intro hall i hi
      by_cases hir : i = r
      · rw [hir, excess_pivot_self h0, hall r hr, zero_div]
      · rw [excess_pivot_of_ne h0 hir, hall i hi, hall r hr, mul_zero, sub_zero]
  · have hr0 : (0 : Nat) ≠ r := by
      rintro rfl
      simp at hr
    rw [excess_pivot_of_ne h0 hr0, h.excess_eq_zero hx hr, mul_zero, sub_zero, h.cost x hx]

theorem Represents.negateRow {p : StandardForm Rat n} {t : τ} (h : Represents p t) {r : Nat}
    (hr : 0 < r) : Represents p (negateRow t r) := by
  have hrows : constraintRows (Tableau.negateRow t r) = constraintRows t :=
    constraintRows_congr (by simp)
  refine ⟨by simpa using h.costRow, by simpa using h.width, fun x => ?_, fun x hx => ?_⟩
  · rw [← h.rows x, hrows]
    refine forall₂_congr fun i _ => ?_
    rw [excess_negateRow]
    split <;> simp
  · rw [excess_negateRow, if_neg hr.ne, h.cost x hx]

theorem forall_excess_removeRow {t : τ} {r : Nat} (hr : r ∈ constraintRows t)
    (h0 : ∀ x : Fin n → Rat, excess t n r x = 0) (x : Fin n → Rat) :
    (∀ i ∈ constraintRows (removeRow t r), excess (removeRow t r) n i x = 0) ↔
      ∀ i ∈ constraintRows t, excess t n i x = 0 := by
  rw [mem_constraintRows] at hr
  simp only [mem_constraintRows, ShapedTableau.nrRows_removeRow t r hr.2, excess_removeRow]
  constructor
  · intro hall i hi
    rcases lt_trichotomy i r with hlt | heq | hgt
    · have := hall i ⟨hi.1, by omega⟩
      rwa [if_pos hlt] at this
    · rw [heq, h0]
    · have := hall (i - 1) ⟨by omega, by omega⟩
      rwa [if_neg (by omega), Nat.sub_add_cancel (by omega)] at this
  · intro hall i hi
    split
    · exact hall i ⟨hi.1, by omega⟩
    · exact hall (i + 1) ⟨by omega, by omega⟩

theorem Represents.removeRow {p : StandardForm Rat n} {t : τ} (h : Represents p t) {r : Nat}
    (hr : r ∈ constraintRows t) (h0 : ∀ x : Fin n → Rat, excess t n r x = 0) :
    Represents p (removeRow t r) := by
  have hr' := mem_constraintRows.1 hr
  have hn : nrRows (Tableau.removeRow t r) = nrRows t - 1 :=
    ShapedTableau.nrRows_removeRow t r hr'.2
  refine ⟨by omega, by simpa using h.width, fun x => ?_, fun x hx => ?_⟩
  · exact (forall_excess_removeRow hr h0 x).trans (h.rows x)
  · rw [excess_removeRow, if_pos hr'.1, h.cost x hx]

/-! ## The first tableau -/

/-- The lines of the tableau that a program starts with. -/
theorem getD_append_singleton (row : Vector Rat n) (rhs : Rat) {j : Nat} (hj : j ≤ n) :
    (row.toList ++ [rhs]).getD j 0 = if h : j < n then row.get ⟨j, h⟩ else rhs := by
  simp only [List.getD_eq_getElem?_getD, List.getElem?_append, Vector.length_toList]
  split
  next h => simp [h, Vector.get]
  next h => simp [show j - n = 0 by omega]

section OfStandardForm

variable (p : StandardForm Rat n) (rule : PivotRule) (threshold : Nat)

theorem nrRows_ofStandardForm :
    nrRows (Board.ofStandardForm (τ := τ) p rule threshold).tableau = p.equations.length + 1 := by
  simp [Board.ofStandardForm, ShapedTableau.nrRows_ofRows]

theorem nrColumns_ofStandardForm :
    nrColumns (Board.ofStandardForm (τ := τ) p rule threshold).tableau = n + 1 := by
  simp [Board.ofStandardForm, ShapedTableau.nrColumns_ofRows]

/-- A line of the first tableau is the cost or an equation, with the right hand side at its end. -/
theorem get_ofStandardForm {i j : Nat} (hj : j ≤ n) {row : Vector Rat n} {rhs : Rat}
    (h : ((p.cost.toList ++ [0]) :: p.equations.map fun e => e.coefficients.toList ++ [e.rhs]).getD
      i [] = row.toList ++ [rhs]) :
    get (Board.ofStandardForm (τ := τ) p rule threshold).tableau i j =
      if h : j < n then row.get ⟨j, h⟩ else rhs := by
  rw [Board.ofStandardForm, LawfulTableau.get_ofRows, if_pos, h, getD_append_singleton _ _ hj]
  simp
  omega

theorem get_ofStandardForm_cost {j : Nat} (hj : j ≤ n) :
    get (Board.ofStandardForm (τ := τ) p rule threshold).tableau 0 j =
      if h : j < n then p.cost.get ⟨j, h⟩ else 0 :=
  get_ofStandardForm p rule threshold hj (by simp)

theorem get_ofStandardForm_equation {k j : Nat} (hk : k < p.equations.length) (hj : j ≤ n) :
    get (Board.ofStandardForm (τ := τ) p rule threshold).tableau (k + 1) j =
      if h : j < n then p.equations[k].coefficients.get ⟨j, h⟩ else p.equations[k].rhs :=
  get_ofStandardForm p rule threshold hj (by simp [hk])

theorem represents_ofStandardForm :
    Represents p (Board.ofStandardForm (τ := τ) p rule threshold).tableau := by
  have hn := nrRows_ofStandardForm (τ := τ) p rule threshold
  have hk (k : Nat) (hk : k < p.equations.length) (x : Fin n → Rat) :
      excess (Board.ofStandardForm (τ := τ) p rule threshold).tableau n (k + 1) x =
        dot p.equations[k].coefficients x - p.equations[k].rhs := by
    simp only [excess, dot, get_ofStandardForm_equation p rule threshold hk le_rfl,
      get_ofStandardForm_equation p rule threshold hk (Fin.isLt _).le, Fin.is_lt, dif_pos,
      lt_irrefl, dite_false]
  refine ⟨by omega, by rw [nrColumns_ofStandardForm]; exact Nat.lt_succ_self n,
    fun x => ?_, fun x _ => ?_⟩
  · simp only [mem_constraintRows, hn]
    constructor
    · intro hall e he
      obtain ⟨k, hlt, rfl⟩ := List.getElem_of_mem he
      have := hall (k + 1) ⟨by omega, by omega⟩
      rw [hk k hlt] at this
      exact sub_eq_zero.1 this
    · intro hall i hi
      obtain ⟨k, rfl⟩ : ∃ k, i = k + 1 := ⟨i - 1, by omega⟩
      rw [hk k (by omega), sub_eq_zero]
      exact hall _ (List.getElem_mem _)
  · simp only [excess, get_ofStandardForm_cost p rule threshold le_rfl,
      get_ofStandardForm_cost p rule threshold (Fin.isLt _).le, Fin.is_lt, dif_pos, lt_irrefl,
      dite_false, sub_zero]
    rfl

end OfStandardForm

end LinProg.Tableau
