import LinProg.Proofs.Safety.Counts

/-!
# The two phases run without failure

On a board that fits, every step of either phase succeeds with all its accesses checked, and every
pivot and every ratio divides by what isn't zero.  Since both loops end by themselves within their
rounds, they succeed as a whole.
-/

namespace LinProg.Checked

open Tableau Board
open CyclingGuard (countsFit countsFit_of_le)

variable {τ : Type} [Tableau τ Rat] {b : Board τ Rat} {r : Run τ Rat} {row column : Nat}

/-! ## Columns that enter -/

theorem better_eq (h : b.Fits) {best : Option Nat} (hbest : ∀ c, best = some c → c < b.nrVariables)
    (hcolumn : column < b.nrVariables) :
    better b.tableau best column = some (PivotRule.better b.tableau best column) := by
  cases best with
  | none => rfl
  | some current =>
    have hcompare := compare_eq (a := (0, column)) (b := (0, current))
      ⟨h.costRow, h.lt_nrColumns hcolumn.le⟩ ⟨h.costRow, h.lt_nrColumns (hbest current rfl).le⟩
    rw [better, hcompare, PivotRule.better]
    dsimp only [Option.bind_eq_bind, Option.bind_some]
    split <;> rfl

theorem select_eq (h : b.Fits) (rule : PivotRule) :
    select rule b.tableau b.nrVariables = some (rule.select b.tableau b.nrVariables) := by
  have hpositive (c : Nat) (hc : c < b.nrVariables) :
      isPositive b.tableau 0 c = some (Tableau.isPositive b.tableau 0 c) :=
    isPositive_eq h.costRow (h.lt_nrColumns hc.le)
  cases rule with
  | firstProfitable => exact findM?_eq _ fun c hc => hpositive c (List.mem_range.1 hc)
  | largestCoefficient =>
    have hfold : (List.range b.nrVariables).foldlM (better b.tableau) none =
        some ((List.range b.nrVariables).foldl (PivotRule.better b.tableau) none) :=
      foldlM_eq (I := fun best => ∀ c, best = some c → c < b.nrVariables) _
        (fun best hbest c hc => ⟨better_eq h hbest (List.mem_range.1 hc),
          PivotRule.lt_of_better hbest (List.mem_range.1 hc)⟩) none fun _ hnone => by cases hnone
    rw [select, hfold, PivotRule.select]
    dsimp only [Option.bind_eq_bind, Option.bind_some]
    cases hbest : (List.range b.nrVariables).foldl (PivotRule.better b.tableau) none with
    | none => rfl
    | some c =>
      dsimp only
      rw [hpositive c (PivotRule.lt_of_foldl_better c hbest)]
      rfl

/-! ## Artificial columns -/

theorem exchangeColumn_eq (h : b.Fits) (hrow : row ∈ constraintRows b.tableau) :
    exchangeColumn b row = some (Run.exchangeColumn b row) :=
  findM?_eq _ fun c hc => by
    have hle : c ≤ b.nrVariables := (List.mem_range.1 hc).le
    rw [h.isZero hrow hle, h.isNegative hrow hle, h.isPositive hrow le_rfl]
    rfl

theorem exchange_eq (h : r.Fits) (hrow : row ∈ constraintRows r.tableau) (pivoted : Bool) :
    exchange (r, pivoted) row = some (Run.exchange (r, pivoted) row) := by
  rw [exchange, h.entry hrow, Run.exchange]
  dsimp only [Option.bind_eq_bind, Option.bind_some]
  split
  · rw [exchangeColumn_eq h hrow]
    dsimp only [Option.bind_some]
    cases hcolumn : Run.exchangeColumn r.toBoard row with
    | none => rfl
    | some c =>
      obtain ⟨hc, hne⟩ := Run.get_ne_zero_of_exchangeColumn hcolumn
      dsimp only
      rw [pivotRun_eq h .exchange hrow hc hne]
      rfl
  · rfl

theorem isRedundant_eq (h : b.Fits) (hrow : row ∈ constraintRows b.tableau) :
    isRedundant b row = some (Run.isRedundant b row) := by
  rw [isRedundant, h.entry hrow,
    anyNonzero_eq (mem_constraintRows.1 hrow).2 (h.lt_nrColumns le_rfl)]
  rfl

variable [LawfulTableau τ]

theorem foldlM_exchange_eq (h : r.Fits) :
    (constraintRows r.tableau).foldlM exchange (r, false) =
      some ((constraintRows r.tableau).foldl Run.exchange (r, false)) := by
  refine foldlM_eq (I := fun out : Run τ Rat × Bool =>
    out.1.Fits ∧ nrRows out.1.tableau = nrRows r.tableau) _ ?_ _ ⟨h, rfl⟩
  rintro ⟨s, pivoted⟩ ⟨hs, hrows⟩ row hrow
  refine ⟨exchange_eq hs (constraintRows_congr hrows ▸ hrow) pivoted, ?_⟩
  unfold Run.exchange
  dsimp only
  split
  · split
    · exact ⟨hs.exchanged (by simp) (by simp), (ShapedTableau.nrRows_pivot ..).trans hrows⟩
    · exact ⟨hs, hrows⟩
  · exact ⟨hs, hrows⟩

theorem removeRedundant_eq (count row : Nat) (r : Run τ Rat) (h : r.Fits) (hrow : 0 < row)
    (hcount : count ≤ nrRows r.tableau - row) :
    removeRedundant count row r = some (Run.removeRedundant count row r) := by
  induction count generalizing row r with
  | zero => rfl
  | succ count ih =>
    have hmem : row ∈ constraintRows r.tableau := mem_constraintRows.2 ⟨hrow, by omega⟩
    rw [removeRedundant, isRedundant_eq h hmem, Run.removeRedundant]
    dsimp only [Option.bind_eq_bind, Option.bind_some]
    split
    · have hlt := h.lt_length hmem
      have hrows : nrRows (r.removed row).tableau = nrRows r.tableau - 1 :=
        ShapedTableau.nrRows_removeRow r.tableau row (mem_constraintRows.1 hmem).2
      have hremove : removeRow r.tableau row = some (Tableau.removeRow r.tableau row) :=
        if_pos ⟨hrow, by omega⟩
      have herase : eraseEntry r.basis row = some (r.basis.eraseIdx (row - 1)) :=
        if_pos ⟨hrow, by omega⟩
      rw [hremove, herase]
      exact ih row _ (h.removed hmem) hrow (by
        show count ≤ nrRows (r.removed row).tableau - row
        omega)
    · exact ih (row + 1) r h (Nat.succ_pos row) (by omega)

theorem driveOut_eq (h : r.Fits) : driveOut r = some r.driveOut := by
  have hexchanged := (Run.moves_exchange (constraintRows r.tableau) r fun _ hrow => hrow).fits h
  rw [driveOut, foldlM_exchange_eq h, Run.driveOut]
  dsimp only [Option.bind_eq_bind, Option.bind_some]
  generalize (constraintRows r.tableau).foldl Run.exchange (r, false) = out at hexchanged ⊢
  obtain ⟨s, pivoted⟩ := out
  have htruncate (s : Run τ Rat) (hs : s.Fits) : truncateColumns s.tableau s.firstArtificial =
      some (Tableau.truncateColumns s.tableau s.firstArtificial) := if_pos hs.active
  cases pivoted with
  | true =>
    dsimp only
    rw [if_pos rfl, if_pos rfl]
    rw [htruncate s hexchanged]
    rfl
  | false =>
    have hremoved :=
      (Run.moves_removeRedundant (nrRows s.tableau - 1) 1 s Nat.one_pos le_rfl).fits hexchanged
    dsimp only [Option.bind_some]
    rw [if_neg Bool.false_ne_true, if_neg Bool.false_ne_true,
      removeRedundant_eq _ 1 s hexchanged Nat.one_pos le_rfl]
    dsimp only [Option.bind_some]
    rw [htruncate _ hremoved]
    rfl

/-! ## The primal phase -/

theorem primalStep_eq {n m t : Nat} (h : r.Fits) (hclimbing : r.Climbing n m t)
    (hfit : countsFit t r.iterations = true) :
    primalStep r = fitting t r.primalStep := by
  have hdriveOut (s : Run τ Rat) (hs : s.Fits) (hiterations : s.iterations = r.iterations) :
      driveOut s = fitting t s.driveOut := by
    rw [driveOut_eq hs, fitting_pos]
    rwa [Run.iterations_driveOut, hiterations]
  rw [primalStep, select_eq h, Run.primalStep]
  dsimp only [Option.bind_eq_bind, Option.bind_some]
  cases hselect : r.rule.select r.tableau r.nrVariables with
  | none => exact hdriveOut r h rfl
  | some c =>
    have hc := (PivotRule.get_pos_of_select hselect).1
    dsimp only
    rw [ratioRow_eq h hc.le]
    dsimp only [Option.bind_some]
    cases hratio : Run.ratioRow r.toBoard c with
    | none => exact hdriveOut _ (h.agrees ⟨r.guard, .unbounded, r.iterations, rfl⟩) rfl
    | some row =>
      obtain ⟨hrow, hpos⟩ := Run.get_pos_of_ratioRow hratio
      exact countedPivot_eq h hclimbing.shaped hclimbing.paced hfit
        (Finset.mem_range.2 (hclimbing.shaped.nrVariables ▸ hc)) (.columnCycled c) .primal hrow hc
        hpos.ne'

theorem primal_eq {n m t : Nat} (h : r.Fits) (hclimbing : r.Climbing n m t)
    (hfit : countsFit t r.iterations = true) :
    primal r = Option.guard (countsFit t ·.iterations) r.primal :=
  rounds_eq (I := fun s : Run τ Rat => s.Fits ∧ s.Climbing n m t)
    (fun _ hs htest => primalStep_eq hs.1 hs.2 htest)
    (fun s hs hagain =>
      ⟨(Run.moves_primalStep s).fits hs.1, (hs.2.primalStep.again hagain).1⟩)
    (fun s h => countsFit_of_le h s.iterations_le_primalStep) _ r ⟨h, hclimbing⟩ hfit
    hclimbing.ends.2

/-! ## The dual phase -/

omit [LawfulTableau τ] in
theorem betterColumn_eq (h : b.Fits) (hrow : row ∈ constraintRows b.tableau)
    (hcolumn : column < b.nrVariables) (best : Option (Nat × Rat)) :
    betterColumn b row best column = some (Run.betterColumn b row best column) := by
  rw [betterColumn, h.isNegative hrow hcolumn.le, Run.betterColumn]
  dsimp only [Option.bind_eq_bind, Option.bind_some]
  split
  next hneg =>
    have hne : get b.tableau row column ≠ 0 := by
      have : get b.tableau row column < 0 := by
        simpa [Tableau.isNegative] using (Bool.and_eq_true_iff.1 hneg).1
      exact this.ne
    rw [h.read_cost hcolumn.le, h.read hrow hcolumn.le]
    dsimp only [Option.bind_some]
    rw [quotient_eq hne]
    dsimp only [Option.bind_some]
    cases best with
    | none => rfl
    | some best => rfl
  next => rfl

omit [LawfulTableau τ] in
theorem repairColumn_eq (h : b.Fits) (hrow : row ∈ constraintRows b.tableau) :
    repairColumn b row = some (Run.repairColumn b row) := by
  rw [repairColumn, foldlM_eq (g := Run.betterColumn b row) (I := fun _ => True) _
    (fun best _ c hc => ⟨betterColumn_eq h hrow (List.mem_range.1 hc) best, trivial⟩) none trivial]
  rfl

theorem repairRows_eq {n m t size before : Nat} (rows : List Nat) (r : Run τ Rat)
    (pivoted : Bool) (h : r.Fits) (hdescending : r.Descending n m t size before)
    (hfit : countsFit t r.iterations = true)
    (hrows : ∀ row ∈ rows, row ∈ constraintRows r.tableau) :
    repairRows rows r pivoted =
      fitting t (Run.repairRows rows r pivoted) := by
  induction rows generalizing r pivoted with
  | nil => exact (fitting_pos hfit).symm
  | cons row rest ih =>
    have hrow := hrows row List.mem_cons_self
    have hrest : ∀ i ∈ rest, i ∈ constraintRows r.tableau :=
      fun i hi => hrows i (List.mem_cons_of_mem _ hi)
    rw [repairRows, h.isNegative hrow le_rfl, Run.repairRows]
    dsimp only [Option.bind_eq_bind, Option.bind_some]
    split
    · rw [repairColumn_eq h hrow]
      dsimp only [Option.bind_some]
      cases hcolumn : Run.repairColumn r.toBoard row with
      | none => exact ih r pivoted h hdescending hfit hrest
      | some c =>
        obtain ⟨hc, hrepairs, -⟩ := Run.repairColumn_some hcolumn
        have hindex := hdescending.mem_Icc hrow
        dsimp only
        rw [countedPivot_eq h hdescending.shaped hdescending.paced hfit hindex (.rowCycled row)
          .dual hrow hc hrepairs.1.ne]
        cases htrip : (r.guard.record row).isTripped with
        | true =>
          rw [Run.counted_of_tripped htrip, fitting_pos (by exact hfit)]
          exact (fitting_pos hfit).symm
        | false =>
          let s : Run τ Rat := { r with
            guard := r.guard.record row
            iterations := r.iterations + 1 }.pivot .dual row c
          have hcounted := h.agrees ⟨r.guard.record row, r.state, r.iterations + 1, rfl⟩
          have hmore : s.iterations ≤ (Run.repairRows rest s true).1.iterations :=
            Run.iterations_le_repairRows rest s true
          have hpivoted (hnext : countsFit t s.iterations = true) :=
            ih s true (hcounted.exchanged (by simp) (by simp))
              (hdescending.counted hindex htrip row c) hnext fun i hi =>
                constraintRows_congr (ShapedTableau.nrRows_pivot r.tableau row c) ▸ hrest i hi
          rw [Run.counted_of_idle htrip, if_neg Bool.false_ne_true]
          by_cases hnext : countsFit t s.iterations = true
          · rw [fitting_pos (by exact hnext)]
            exact hpivoted hnext
          · rw [fitting_neg (by exact hnext)]
            exact (fitting_neg fun hlast => hnext (countsFit_of_le hlast hmore)).symm
    · exact ih r pivoted h hdescending hfit hrest

theorem dualStep_eq {n m t size before : Nat} (h : r.Fits)
    (hdescending : r.Descending n m t size before) (hfit : countsFit t r.iterations = true) :
    dualStep r = fitting t r.dualStep :=
  repairRows_eq _ r false h hdescending hfit fun _ hrow => hrow

theorem dual_eq {n m t : Nat} (h : r.Fits) (hshaped : r.Shaped n m t)
    (hfit : countsFit t r.iterations = true) :
    dual r = Option.guard (countsFit t ·.iterations) r.dual := by
  rw [dual, Run.dual]
  split
  next hstate =>
    exact rounds_eq
      (I := fun s : Run τ Rat => s.Fits ∧ s.Descending n m t r.basis.length r.iterations)
      (fun _ hs htest => dualStep_eq hs.1 hs.2 htest)
      (fun s hs hagain => ⟨(Run.moves_repairRows (constraintRows s.tableau) s false
        fun _ hrow => hrow).fits hs.1, (hs.2.dualStep.again hagain).1⟩)
      (fun s h => countsFit_of_le h (Run.iterations_le_repairRows _ s false)) _ _
      ⟨h.agrees ⟨r.guard.reset, r.state, r.iterations, rfl⟩, Run.descending_reset hshaped⟩ hfit
      (Run.dual_ends hshaped hstate).2
  next => exact (Option.guard_pos (p := fun s : Run τ Rat => countsFit t s.iterations) hfit).symm

/-- Both phases, the first of which starts with a guard that has counted nothing yet. -/
theorem primal_bind_dual {n m t : Nat} (h : r.Fits) (hclimbing : r.Climbing n m t)
    (hfit : countsFit t r.iterations = true) :
    (primal r).bind dual = Option.guard (countsFit t ·.iterations) r.primal.dual := by
  rw [primal_eq h hclimbing hfit, Option.guard_eq_ite]
  split
  next hprimal => exact dual_eq ((Run.moves_primal r).fits h) hclimbing.primal.1 hprimal
  next hprimal =>
    refine (Option.guard_eq_none_iff.2 (Bool.eq_false_iff.2 fun hlast => hprimal ?_)).symm
    exact countsFit_of_le hlast r.primal.iterations_le_dual

end LinProg.Checked
