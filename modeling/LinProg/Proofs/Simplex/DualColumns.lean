import LinProg.Proofs.Simplex.Start

/-!
# Columns of dual values

Every constraint gets one column that has a value in its row only and that costs nothing: a slack
variable if there is one (`slackColumns_spec`), else a column that preparation adds behind the right
hand side (`adds_addDualColumns`).  Preparation also negates rows, and an added column counts for
the row as it was given, hence its sign.
-/

namespace LinProg

open Tableau

variable {n : Nat}

/-! ## Slack variables -/

/-- The variable costs nothing and has its only coefficient, `a`, in the constraint `i`. -/
structure StandardForm.IsSlack (p : StandardForm Rat n) (i : Nat) (k : Fin n) (a : Rat) :
    Prop where
  cost : p.cost.get k = 0
  ne_zero : a ≠ 0
  coefficient : ∀ i' (h : i' < p.equations.length),
    p.equations[i'].coefficients.get k = if i' = i then a else 0

/-- A list with a single element of some kind has none of it elsewhere. -/
theorem Board.of_filter_zipIdx_eq_singleton {α : Type} {l : List α} {q : α × Nat → Bool} {e : α}
    {i : Nat} (h : l.zipIdx.filter q = [(e, i)]) :
    l[i]? = some e ∧ q (e, i) = true ∧ ∀ i' e', l[i']? = some e' → q (e', i') = true → i' = i := by
  have hmem (x : α × Nat) : l[x.2]? = some x.1 ∧ q x = true ↔ x = (e, i) := by
    rw [← List.mk_mem_zipIdx_iff_getElem?, ← List.mem_filter, h, List.mem_singleton]
  obtain ⟨hi, hq⟩ := (hmem (e, i)).2 rfl
  exact ⟨hi, hq, fun i' e' hi' hq' => congrArg Prod.snd ((hmem (e', i')).1 ⟨hi', hq'⟩)⟩

/-- One entry is kept for each constraint, and what is found is a slack variable. -/
theorem Board.slackColumns_spec (p : StandardForm Rat n) :
    (slackColumns p).length = p.equations.length ∧
      ∀ i k a, (slackColumns p)[i]? = some (some (k, a)) → ∃ h : k < n, p.IsSlack i ⟨k, h⟩ a := by
  unfold slackColumns
  refine List.foldlRecOn (motive := fun found : List (Option (Nat × Rat)) =>
    found.length = p.equations.length ∧
      ∀ i k a, found[i]? = some (some (k, a)) → ∃ h : k < n, p.IsSlack i ⟨k, h⟩ a) _ _
    ⟨List.length_replicate, fun i k a h => ?_⟩ ?_
  · rw [List.getElem?_replicate] at h
    split at h <;> cases h
  rintro found ⟨hlength, hfound⟩ j -
  split
  next hcost =>
    split
    next e i hfilter =>
      obtain ⟨hi, hne, honly⟩ := of_filter_zipIdx_eq_singleton hfilter
      simp only [Scalar.isZero_rat, decide_eq_true_eq, Bool.not_eq_true',
        decide_eq_false_iff_not] at hcost hne honly
      refine ⟨by rw [List.length_set, hlength], fun i' k a h => ?_⟩
      rw [List.getElem?_set] at h
      split at h
      next heq =>
        subst heq
        split at h
        · simp only [Option.some.injEq, Prod.mk.injEq] at h
          obtain ⟨rfl, rfl⟩ := h
          refine ⟨j.isLt, hcost, hne, fun i' hi' => ?_⟩
          split
          next heq =>
            subst heq
            rw [List.getElem?_eq_getElem hi', Option.some.injEq] at hi
            rw [hi]
          next hdiff =>
            by_contra hvalue
            exact hdiff (honly i' _ (List.getElem?_eq_getElem hi') hvalue)
        · cases h
      next => exact hfound i' k a h
    next => exact ⟨hlength, hfound⟩
  next => exact ⟨hlength, hfound⟩

namespace Run

variable {τ : Type} [Tableau τ Rat]

/-! ## Added columns -/

/-- How `out` follows from a tableau and the columns that are known for its rows from `row` on. -/
structure Adds (sign : Nat → Rat) (row : Nat) (t : τ) (columns : List (Option (Nat × Rat)))
    (out : τ × List (Option (Nat × Rat))) : Prop where
  nrRows : nrRows out.1 = Tableau.nrRows t
  nrColumns : nrColumns t ≤ nrColumns out.1
  old : ∀ i, ∀ j < Tableau.nrColumns t, get out.1 i j = get t i j
  above : ∀ i < row, ∀ j, Tableau.nrColumns t ≤ j → get out.1 i j = 0
  length : out.2.length = columns.length
  kept : ∀ (i : Nat) found, columns[i]? = some (some found) → out.2[i]? = some (some found)
  added : ∀ i : Nat, columns[i]? = some none →
    ∃ k, out.2[i]? = some (some (k, sign (row + i))) ∧
      Tableau.nrColumns t ≤ k ∧ k < Tableau.nrColumns out.1 ∧
      ∀ r < Tableau.nrRows t, get out.1 r k = if r = row + i then 1 else 0

variable [LawfulTableau τ]

theorem adds_addDualColumns (sign : Nat → Rat) (columns : List (Option (Nat × Rat))) (row : Nat)
    (t : τ) (h : row + columns.length ≤ nrRows t) :
    Adds sign row t columns (addDualColumns sign row t columns) := by
  induction columns generalizing row t with
  | nil =>
    exact ⟨rfl, le_rfl, fun _ _ _ => rfl, fun i _ j hj => LawfulTableau.get_column_outside t i j hj,
      rfl, by simp, by simp⟩
  | cons found rest ih =>
    rw [List.length_cons] at h
    cases found with
    | some found =>
      have ih := ih (row + 1) t (by omega)
      refine ⟨ih.nrRows, ih.nrColumns, ih.old, fun i hi => ih.above i (by omega),
        congrArg (· + 1) ih.length, fun i => ?_, fun i hi => ?_⟩
      · cases i with
        | zero => exact fun _ h => h
        | succ i => exact ih.kept i
      · cases i with
        | zero => cases hi
        | succ i =>
          rw [show row + (i + 1) = row + 1 + i by omega]
          exact ih.added i hi
    | none =>
      -- the new column is a unit vector, and later ones are written behind it
      let u := set (addColumn t) row (nrColumns t) (1 : Rat)
      have hrows : Tableau.nrRows u = Tableau.nrRows t := by simp [u]
      have hcolumns : Tableau.nrColumns u = Tableau.nrColumns t + 1 := by simp [u]
      have hcolumn (i : Nat) : get u i (nrColumns t) = if i = row then 1 else 0 :=
        get_set_addColumn_self t row 1 i (by omega)
      have ih := ih (row + 1) u (by omega)
      have hlt := Nat.lt_of_lt_of_le (by omega : nrColumns t < _) ih.nrColumns
      refine ⟨ih.nrRows.trans hrows, hlt.le, fun i j hj => ?_, fun i hi j hj => ?_,
        congrArg (· + 1) ih.length, fun i => ?_, fun i hi => ?_⟩
      · exact (ih.old i j (by omega)).trans (get_set_addColumn_of_lt t row 1 i hj)
      · rcases Nat.eq_or_lt_of_le hj with rfl | hj
        · exact (ih.old i _ (by omega)).trans ((hcolumn i).trans (if_neg (by omega)))
        · exact ih.above i (by omega) j (by omega)
      · cases i with
        | zero => exact fun _ h => by cases h
        | succ i => exact ih.kept i
      · cases i with
        | zero =>
          exact ⟨nrColumns t, rfl, le_rfl, hlt, fun r _ =>
            (ih.old r _ (by omega)).trans (hcolumn r)⟩
        | succ i =>
          rw [show row + (i + 1) = row + 1 + i by omega, ← hrows]
          obtain ⟨k, hk, hle, hunit⟩ := ih.added i hi
          exact ⟨k, hk, by omega, hunit⟩

/-! ## Negated rows -/

theorem get_foldl_negateRow (keep : Nat → Bool) (rows : List Nat) (hrows : rows.Nodup) (t : τ)
    (i j : Nat) :
    get (rows.foldl (fun t row => if keep row then t else negateRow t row) t) i j =
      if i ∈ rows ∧ keep i = false then -get t i j else get t i j := by
  induction rows generalizing t with
  | nil => simp
  | cons row rest ih =>
    rw [List.nodup_cons] at hrows
    have hrow : get (if keep row then t else negateRow t row) i j =
        if i = row ∧ keep row = false then -get t i j else get t i j := by
      cases hkeep : keep row with
      | true => simp
      | false => simp [LawfulTableau.get_negateRow]
    rw [List.foldl_cons, ih hrows.2, hrow]
    by_cases hi : i = row
    · subst hi
      simp [hrows.1]
    · simp [hi]

/-- The sign of a row after preparation, seen from the row as it was given. -/
def sign (b : Board τ Rat) (row : Nat) : Rat := if keepsSign b row then 1 else -1

omit [LawfulTableau τ] in
theorem sign_mul_self (b : Board τ Rat) (row : Nat) : sign b row * sign b row = 1 := by
  unfold sign
  split
  · exact one_mul 1
  · rw [neg_mul_neg, one_mul]

theorem nrColumns_nonnegative (b : Board τ Rat) :
    nrColumns (nonnegative b) = nrColumns b.tableau := by
  refine List.foldlRecOn (motive := fun t => nrColumns t = nrColumns b.tableau) _ _ rfl
    fun t ht row _ => ?_
  split
  · exact ht
  · exact (ShapedTableau.nrColumns_negateRow t row).trans ht

theorem get_nonnegative (b : Board τ Rat) (i j : Nat) :
    get (nonnegative b) i j =
      if i ∈ constraintRows b.tableau then sign b i * get b.tableau i j else get b.tableau i j := by
  rw [nonnegative, get_foldl_negateRow (keepsSign b) (constraintRows b.tableau)
    (List.nodup_range' 1)]
  unfold sign
  by_cases hi : i ∈ constraintRows b.tableau
  · cases keepsSign b i <;> simp [hi]
  · simp [hi]

/-! ## The prepared tableau -/

/-- What preparation makes of a program: each row is the one that was given up to its sign, and has
a column that counts for it alone. -/
structure Prepared (p : StandardForm Rat n) (sign : Nat → Rat) (t : τ)
    (columns : List (Option (Nat × Rat))) : Prop where
  nrRows : nrRows t = p.equations.length + 1
  width : n < nrColumns t
  cost : ∀ j < nrColumns t, get t 0 j = if h : j < n then p.cost.get ⟨j, h⟩ else 0
  coefficient : ∀ i (h : i < p.equations.length) (j : Fin n),
    get t (i + 1) j = sign (i + 1) * p.equations[i].coefficients.get j
  rhs : ∀ i (h : i < p.equations.length), get t (i + 1) n = sign (i + 1) * p.equations[i].rhs
  length : columns.length = p.equations.length
  dual : ∀ i < p.equations.length, ∃ k < nrColumns t, ∃ a,
    columns[i]? = some (some (k, a)) ∧ a ≠ 0 ∧ get t 0 k = 0 ∧
      ∀ i' < p.equations.length, sign (i' + 1) * get t (i' + 1) k = if i' = i then a else 0

/-- How preparation follows from a program. -/
theorem adds_prepared (p : StandardForm Rat n) (rule : PivotRule) (threshold : Nat)
    {b : Board τ Rat} (hb : b.tableau = (Board.ofStandardForm (τ := τ) p rule threshold).tableau)
    (hcolumns : b.dualColumns = Board.slackColumns p) :
    Tableau.nrRows (nonnegative b) = p.equations.length + 1 ∧ nrColumns (nonnegative b) = n + 1 ∧
      Adds (sign b) 1 (nonnegative b) b.dualColumns
        (addDualColumns (sign b) 1 (nonnegative b) b.dualColumns) := by
  have hp : Represents p b.tableau := hb ▸ represents_ofStandardForm p rule threshold
  have hrows : Tableau.nrRows (nonnegative b) = p.equations.length + 1 := by
    rw [hp.nonnegative.2, hb, nrRows_ofStandardForm]
  have hlength := (Board.slackColumns_spec p).1
  rw [← hcolumns] at hlength
  refine ⟨hrows, ?_, adds_addDualColumns (sign b) b.dualColumns 1 (nonnegative b) (by omega)⟩
  rw [nrColumns_nonnegative, hb, nrColumns_ofStandardForm]

theorem prepared_addDualColumns (p : StandardForm Rat n) (rule : PivotRule) (threshold : Nat)
    {b : Board τ Rat} (hb : b.tableau = (Board.ofStandardForm (τ := τ) p rule threshold).tableau)
    (hcolumns : b.dualColumns = Board.slackColumns p) :
    Prepared p (sign b) (addDualColumns (sign b) 1 (nonnegative b) b.dualColumns).1
      (addDualColumns (sign b) 1 (nonnegative b) b.dualColumns).2 := by
  obtain ⟨hlength, hslack⟩ := Board.slackColumns_spec p
  rw [← hcolumns] at hlength hslack
  obtain ⟨hrows, hwidth, hadds⟩ := adds_prepared p rule threshold hb hcolumns
  generalize addDualColumns (sign b) 1 (nonnegative b) b.dualColumns = out at hadds ⊢
  have hle := hadds.nrColumns
  have hcost (j : Nat) (hj : j < nrColumns out.1) :
      get out.1 0 j = if h : j < n then p.cost.get ⟨j, h⟩ else 0 := by
    by_cases hjn : j ≤ n
    · rw [hadds.old 0 j (by omega), get_nonnegative, if_neg (by simp), hb,
        get_ofStandardForm_cost p rule threshold hjn]
    · rw [hadds.above 0 Nat.one_pos j (by omega), dif_neg (by omega)]
  have hrow (i : Nat) (hi : i < p.equations.length) (j : Nat) (hj : j ≤ n) :
      get out.1 (i + 1) j = sign b (i + 1) *
        if h : j < n then p.equations[i].coefficients.get ⟨j, h⟩ else p.equations[i].rhs := by
    rw [hadds.old _ j (by omega), get_nonnegative, if_pos, hb,
      get_ofStandardForm_equation p rule threshold hi hj]
    rw [mem_constraintRows, hb, nrRows_ofStandardForm]
    omega
  have hcoefficient (i : Nat) (hi : i < p.equations.length) (j : Fin n) :
      get out.1 (i + 1) j = sign b (i + 1) * p.equations[i].coefficients.get j := by
    rw [hrow i hi j j.isLt.le, dif_pos j.isLt]
  refine ⟨hadds.nrRows.trans hrows, by omega, hcost, hcoefficient, fun i hi => ?_,
    hadds.length.trans hlength, fun i hi => ?_⟩
  · rw [hrow i hi n le_rfl, dif_neg (lt_irrefl n)]
  · cases hfound : b.dualColumns[i]? with
    | none =>
      rw [List.getElem?_eq_none_iff] at hfound
      omega
    | some found =>
      cases found with
      | some found =>
        obtain ⟨k, a⟩ := found
        obtain ⟨hk, h⟩ := hslack i k a hfound
        refine ⟨k, by omega, a, hadds.kept i _ hfound, h.ne_zero, ?_, fun i' hi' => ?_⟩
        · rw [hcost k (by omega), dif_pos hk, h.cost]
        · rw [hcoefficient i' hi' ⟨k, hk⟩, ← mul_assoc, sign_mul_self, one_mul,
            h.coefficient i' hi']
      | none =>
        obtain ⟨k, hk, hge, hlt, hunit⟩ := hadds.added i hfound
        have hne : sign b (1 + i) ≠ 0 := left_ne_zero_of_mul_eq_one (sign_mul_self b _)
        refine ⟨k, hlt, _, hk, hne, ?_, fun i' hi' => ?_⟩
        · rw [hcost k hlt, dif_neg (by omega)]
        · rw [hunit (i' + 1) (by omega), mul_ite, mul_one, mul_zero]
          by_cases hii : i' = i
          · rw [if_pos (by omega), if_pos hii, hii, Nat.add_comm]
          · rw [if_neg (by omega), if_neg hii]

end Run

end LinProg
