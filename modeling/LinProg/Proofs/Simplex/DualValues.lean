import LinProg.Proofs.Simplex.DualColumns
import LinProg.Proofs.Simplex.Moves
import Mathlib.LinearAlgebra.Finsupp.LinearCombination

/-!
# Dual values

All rows of a tableau are combinations of the rows of the program as they were given, and so is the
difference between the cost of the program and the cost row.  An `Extension` continues the program's
rows over the columns of the dual values; each of these columns meets one row only, so that it tells
the factor of that row.  No row operation leaves the space of combinations, and what happens to
artificial columns doesn't matter to it: dual values are exact at every moment of a run.
-/

namespace LinProg

open Tableau Board

variable {τ : Type} [Tableau τ Rat] {n w : Nat} {p : StandardForm Rat n}
  {columns : List (Option (Nat × Rat))}

/-! ## Dual values of a board -/

def Board.shadowPrice (b : Board τ Rat) (i : Nat) : Rat :=
  Run.dualValue b (b.dualColumns.getD i none)

/-- The cost row of a board is the cost of the program less the rows that were given, combined by
the dual values. -/
structure Board.DualExact (p : StandardForm Rat n) (b : Board τ Rat) : Prop where
  length : b.dualColumns.length = p.equations.length
  recorded : ∀ found ∈ b.dualColumns, ∃ column coefficient,
    found = some (column, coefficient) ∧ coefficient ≠ 0
  profit : ∀ j : Fin n, get b.tableau 0 j = p.cost.get j -
    ∑ i : Fin p.equations.length, b.shadowPrice i * p.equations[i].coefficients.get j
  value : get b.tableau 0 n = -∑ i : Fin p.equations.length, b.shadowPrice i * p.equations[i].rhs

/-! ## Rows with their dual columns -/

def StandardForm.costLine (p : StandardForm Rat n) (w : Nat) (j : Fin w) : Rat :=
  if h : j < n then p.cost.get ⟨j, h⟩ else 0

/-- The rows of a program over `w` columns, the recorded ones among them. -/
structure Extension (p : StandardForm Rat n) (columns : List (Option (Nat × Rat))) (w : Nat) where
  row : Fin p.equations.length → Fin w → Rat
  width : n < w
  coefficient : ∀ i (j : Fin n), row i ⟨j, j.isLt.trans width⟩ = p.equations[i].coefficients.get j
  rhs : ∀ i, row i ⟨n, width⟩ = p.equations[i].rhs
  length : columns.length = p.equations.length
  /-- The column of a constraint costs nothing and has a value in its row only. -/
  dual : ∀ i : Fin p.equations.length, ∃ (k : Fin w) (a : Rat),
    columns[i.val]? = some (some (k.val, a)) ∧ a ≠ 0 ∧ p.costLine w k = 0 ∧
      ∀ i', row i' k = if i' = i then a else 0

def Extension.rowSpace (E : Extension p columns w) : Submodule Rat (Fin w → Rat) :=
  Submodule.span Rat (Set.range E.row)

def Tableau.lineOf (t : τ) (w row : Nat) (j : Fin w) : Rat := get t row j

variable {E : Extension p columns w}

/-- A tableau with combinations of the program's rows. -/
structure Tableau.DerivedFrom (E : Extension p columns w) (t : τ) : Prop where
  width : w ≤ nrColumns t
  cost : p.costLine w - lineOf t w 0 ∈ E.rowSpace
  rows : ∀ row ∈ constraintRows t, lineOf t w row ∈ E.rowSpace

structure Board.DerivedFrom (E : Extension p columns w) (b : Board τ Rat) : Prop where
  dualColumns : b.dualColumns = columns
  firstArtificial : b.firstArtificial = w
  tableau : Tableau.DerivedFrom E b.tableau

/-- The dual columns of a tableau tell how its cost row was combined. -/
theorem Board.DerivedFrom.dualExact {b : Board τ Rat} (h : DerivedFrom E b) : DualExact p b := by
  obtain ⟨y, hy⟩ := (Submodule.mem_span_range_iff_exists_fun Rat).1 h.tableau.cost
  have hline (j : Fin w) : get b.tableau 0 j = p.costLine w j - ∑ i, y i * E.row i j := by
    have := congrFun hy j
    simp only [Finset.sum_apply, Pi.smul_apply, smul_eq_mul, Pi.sub_apply, lineOf] at this
    rw [this, sub_sub_cancel]
  have hdual (i : Fin p.equations.length) : b.shadowPrice i = y i := by
    obtain ⟨k, a, hk, ha, hcost, hrow⟩ := E.dual i
    have hget : get b.tableau 0 k = -(y i * a) := by
      rw [hline, hcost, zero_sub]
      simp only [hrow, mul_ite, mul_zero, Finset.sum_ite_eq', Finset.mem_univ, if_true]
    rw [Board.shadowPrice, h.dualColumns, List.getD_eq_getElem?_getD, hk]
    show -get b.tableau 0 k / a = y i
    rw [hget, neg_neg, mul_div_cancel_right₀ _ ha]
  refine ⟨h.dualColumns ▸ E.length, fun found hfound => ?_, fun j => ?_, ?_⟩
  · rw [h.dualColumns] at hfound
    obtain ⟨i, hi, rfl⟩ := List.getElem_of_mem hfound
    obtain ⟨k, a, hk, ha, -⟩ := E.dual ⟨i, E.length ▸ hi⟩
    rw [List.getElem?_eq_getElem hi, Option.some.injEq] at hk
    exact ⟨k, a, hk, ha⟩
  · rw [hline ⟨j, j.isLt.trans E.width⟩, StandardForm.costLine, dif_pos j.isLt]
    simp only [hdual, E.coefficient]
  · rw [hline ⟨n, E.width⟩, StandardForm.costLine, dif_neg (lt_irrefl n), zero_sub]
    simp only [hdual, E.rhs]

variable [LawfulTableau τ]

/-! ## Row operations -/

namespace Tableau

theorem lineOf_pivot_self {t : τ} {r c : Nat} (h : get t r c ≠ 0) :
    lineOf (pivot t r c) w r = (get t r c)⁻¹ • lineOf t w r := by
  funext j
  simp only [lineOf, LawfulTableau.get_pivot t r c _ _ h, if_true, Pi.smul_apply, smul_eq_mul]
  exact div_eq_inv_mul _ _

theorem lineOf_pivot_of_ne {t : τ} {r c i : Nat} (h : get t r c ≠ 0) (hi : i ≠ r) :
    lineOf (pivot t r c) w i = lineOf t w i - get t i c • lineOf (pivot t r c) w r := by
  funext j
  simp only [lineOf, LawfulTableau.get_pivot t r c _ _ h, if_true, if_neg hi, Pi.sub_apply,
    Pi.smul_apply, smul_eq_mul]

theorem DerivedFrom.pivot {t : τ} (h : DerivedFrom E t) {r c : Nat} (hr : r ∈ constraintRows t)
    (h0 : get t r c ≠ 0) : DerivedFrom E (pivot t r c) := by
  have hself : lineOf (Tableau.pivot t r c) w r ∈ E.rowSpace := by
    rw [lineOf_pivot_self h0]
    exact Submodule.smul_mem _ _ (h.rows r hr)
  refine ⟨by simpa using h.width, ?_, fun i hi => ?_⟩
  · rw [lineOf_pivot_of_ne h0 (mem_constraintRows.1 hr).1.ne, sub_sub_eq_add_sub,
      add_sub_right_comm]
    exact Submodule.add_mem _ h.cost (Submodule.smul_mem _ _ hself)
  · by_cases hir : i = r
    · exact hir ▸ hself
    · rw [lineOf_pivot_of_ne h0 hir]
      rw [constraintRows_congr (ShapedTableau.nrRows_pivot t r c)] at hi
      exact Submodule.sub_mem _ (h.rows i hi) (Submodule.smul_mem _ _ hself)

omit [LawfulTableau τ] in
theorem DerivedFrom.congr {t u : τ} (h : DerivedFrom E t) (hrows : nrRows u = nrRows t)
    (hwidth : w ≤ nrColumns u) (hget : ∀ i, ∀ j < w, get u i j = get t i j) :
    DerivedFrom E u := by
  have hline (i : Nat) : lineOf u w i = lineOf t w i := funext fun j => hget i j j.isLt
  refine ⟨hwidth, hline 0 ▸ h.cost, fun row hrow => ?_⟩
  rw [hline row]
  exact h.rows row (constraintRows_congr hrows ▸ hrow)

theorem DerivedFrom.truncateColumns {t : τ} (h : DerivedFrom E t) :
    DerivedFrom E (truncateColumns t w) := by
  refine h.congr (by simp) (by simpa using h.width) fun i j hj => ?_
  rw [LawfulTableau.get_truncateColumns, if_pos hj]

end Tableau

theorem Board.DerivedFrom.removed {b : Board τ Rat} (h : DerivedFrom E b) {row : Nat}
    (hrow : row ∈ constraintRows b.tableau) : DerivedFrom E (b.removed row) := by
  have hline (i : Nat) :
      lineOf (b.removed row).tableau w i = lineOf b.tableau w (rowBefore row i) :=
    funext fun j => b.get_removed row i j
  refine ⟨h.dualColumns, h.firstArtificial, ?_, ?_, fun i hi => ?_⟩
  · exact h.tableau.width.trans_eq (ShapedTableau.nrColumns_removeRow b.tableau row).symm
  · rw [hline, rowBefore, if_pos (mem_constraintRows.1 hrow).1]
    exact h.tableau.cost
  · rw [hline]
    exact h.tableau.rows _ (b.rowBefore_mem hrow hi).1

/-! ## Runs -/

/-- A run whose board, and every board on the way, has combinations of the program's rows. -/
structure Run.DerivedFrom (E : Extension p columns w) (r : Run τ Rat) : Prop where
  board : Board.DerivedFrom E r.toBoard
  history : ∀ e ∈ r.history, Board.DerivedFrom E e.board

namespace Run.DerivedFrom

omit [LawfulTableau τ] in
theorem note {r : Run τ Rat} (h : DerivedFrom E r) (event : Event) :
    DerivedFrom E (r.note event) :=
  ⟨h.board, List.forall_mem_cons.2 ⟨h.board, h.history⟩⟩

omit [LawfulTableau τ] in
theorem of_eq {r r' : Run τ Rat} (h : DerivedFrom E r) (ht : Tableau.DerivedFrom E r'.tableau)
    (hcolumns : r'.dualColumns = r.dualColumns) (hfirst : r'.firstArtificial = r.firstArtificial)
    (hhistory : r'.history = r.history) : DerivedFrom E r' :=
  ⟨⟨hcolumns.trans h.board.dualColumns, hfirst.trans h.board.firstArtificial, ht⟩,
    hhistory ▸ h.history⟩

theorem pivot {r : Run τ Rat} (h : DerivedFrom E r) (phase : Phase) {row c : Nat}
    (hrow : row ∈ constraintRows r.tableau) (h0 : get r.tableau row c ≠ 0) :
    DerivedFrom E (r.pivot phase row c) := by
  have hexchanged : DerivedFrom E
      (⟨r.exchanged (Tableau.pivot r.tableau row c) row c, r.history⟩ : Run τ Rat) :=
    h.of_eq (h.board.tableau.pivot hrow h0) rfl rfl rfl
  exact hexchanged.note _

theorem addArtificials {r : Run τ Rat} (h : DerivedFrom E r)
    (hgaps : r.basis.countP (·.isNone) ≠ 0) : DerivedFrom E r.addArtificials := by
  have hwidens := widens_addArtificials r
  have hboard : Board.DerivedFrom E r.addArtificials.toBoard :=
    ⟨hwidens.dualColumns.trans h.board.dualColumns,
      hwidens.firstArtificial.trans h.board.firstArtificial,
      h.board.tableau.congr hwidens.nrRows (h.board.tableau.width.trans hwidens.nrColumns)
        fun i j hj => hwidens.old i j (hj.trans_le h.board.tableau.width)⟩
  refine ⟨hboard, ?_⟩
  rw [history_addArtificials hgaps, List.forall_mem_cons]
  exact ⟨hboard, h.history⟩

/-- No move leaves the combinations of the program's rows. -/
theorem move {r s : Run τ Rat} (h : DerivedFrom E r) {phase : Phase} (hmove : Move phase r s) :
    DerivedFrom E s := by
  cases hmove with
  | note event hevent => exact h.note event
  | mark guard state iterations => exact h.of_eq h.board.tableau rfl rfl rfl
  | pivot hrow hc hpicks => exact h.pivot phase hrow hpicks.get_ne_zero
  | fill hgaps => exact h.addArtificials hgaps
  | remove hrow hredundant =>
    exact (h.note _).of_eq (h.board.removed hrow).tableau rfl rfl rfl
  | drop =>
    have htruncated : DerivedFrom E
        ({ r with tableau := Tableau.truncateColumns r.tableau r.firstArtificial } : Run τ Rat) :=
      h.of_eq (h.board.firstArtificial ▸ h.board.tableau.truncateColumns) rfl rfl rfl
    exact htruncated.note _

end Run.DerivedFrom

/-! ## Exact dual values -/

/-- The rows of a program, read off its prepared tableau with the signs that they were given. -/
def Run.Prepared.extension {sign : Nat → Rat} {t : τ} (h : Prepared p sign t columns)
    (hsign : ∀ row, sign row * sign row = 1) : Extension p columns (nrColumns t) where
  row i j := sign (i + 1) * get t (i + 1) j
  width := h.width
  coefficient i j := by rw [h.coefficient i i.isLt, ← mul_assoc, hsign, one_mul]; rfl
  rhs i := by rw [h.rhs i i.isLt, ← mul_assoc, hsign, one_mul]; rfl
  length := h.length
  dual i := by
    obtain ⟨k, hk, a, hfound, ha, hcost, hrow⟩ := h.dual i i.isLt
    refine ⟨⟨k, hk⟩, a, hfound, ha, (h.cost k hk).symm.trans hcost, fun i' => ?_⟩
    rw [hrow i' i'.isLt]
    exact ite_congr (propext Fin.ext_iff.symm) (fun _ => rfl) fun _ => rfl

omit [LawfulTableau τ] in
theorem Run.Prepared.derivedFrom {sign : Nat → Rat} {t : τ} (h : Prepared p sign t columns)
    (hsign : ∀ row, sign row * sign row = 1) : Tableau.DerivedFrom (h.extension hsign) t := by
  refine ⟨le_rfl, ?_, fun row hrow => ?_⟩
  · have hcost : p.costLine (nrColumns t) = lineOf t (nrColumns t) 0 :=
      funext fun j => (h.cost j j.isLt).symm
    rw [hcost, sub_self]
    exact Submodule.zero_mem _
  · rw [mem_constraintRows, h.nrRows] at hrow
    obtain ⟨i, rfl⟩ : ∃ i, row = i + 1 := ⟨row - 1, by omega⟩
    have hline : lineOf t (nrColumns t) (i + 1) =
        sign (i + 1) • (h.extension hsign).row ⟨i, by omega⟩ := by
      funext j
      show get t (i + 1) j = sign (i + 1) * (sign (i + 1) * get t (i + 1) j)
      rw [← mul_assoc, hsign, one_mul]
    rw [hline]
    exact Submodule.smul_mem _ _ (Submodule.subset_span ⟨_, rfl⟩)

/-- Everything that a program's run goes through after its preparation is a combination of the
program's rows. -/
theorem Simplex.derivedFrom_solve (p : StandardForm Rat n) (rule : PivotRule)
    (threshold places : Nat) :
    ∃ (columns : List (Option (Nat × Rat))) (w : Nat) (E : Extension p columns w),
      Run.DerivedFrom E (Simplex.new (τ := τ) p rule threshold places).solve.run := by
  let r : Run τ Rat := { Run.start (Board.ofStandardForm p rule threshold) with state := .solving }
  have hprepared := Run.prepared_addDualColumns (b := r.toBoard) p rule threshold rfl rfl
  let E := hprepared.extension (Run.sign_mul_self r.toBoard)
  have hboard : Board.DerivedFrom E r.prepare.toBoard := ⟨rfl, rfl, hprepared.derivedFrom _⟩
  have hstart : Run.DerivedFrom E r.prepare :=
    ⟨hboard, fun e he => List.mem_singleton.1 he ▸ hboard⟩
  exact ⟨_, _, E, (moves_solve p rule threshold places).keeps
    (fun _ _ _ _ hmove h => h.move hmove) hstart⟩

theorem Simplex.dualExact_solve (p : StandardForm Rat n) (rule : PivotRule)
    (threshold places : Nat) :
    DualExact p (Simplex.new (τ := τ) p rule threshold places).solve.run.toBoard ∧
      ∀ e ∈ (Simplex.new (τ := τ) p rule threshold places).solve.run.history,
        DualExact p e.board := by
  obtain ⟨columns, w, E, h⟩ := derivedFrom_solve (τ := τ) p rule threshold places
  exact ⟨h.board.dualExact, fun e he => (h.history e he).dualExact⟩

end LinProg
