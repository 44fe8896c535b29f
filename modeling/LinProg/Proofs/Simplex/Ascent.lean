import LinProg.Proofs.Simplex.DualColumns
import LinProg.Proofs.Simplex.Moves
import LinProg.Proofs.Tableau.Dense

/-!
# The way up

Until artificial columns are driven out for the first time, right hand sides stay nonnegative and
no pivot of the primal phase lowers the objective (`primal_ascent`).  A pivot takes a multiple of
its row from every other one.  Without positive value in the column that only raises the right hand
side; a row with a positive value has no smaller ratio than the pivot row, so that enough is left.
-/

namespace LinProg

open Tableau Board

variable {τ : Type} [Tableau τ Rat] {n : Nat} {p : StandardForm Rat n}

/-! ## Nonnegative right hand sides -/

structure Board.Nonnegative (n : Nat) (b : Board τ Rat) : Prop where
  nrVariables : b.nrVariables = n
  width : n < nrColumns b.tableau
  rhs : ∀ row ∈ constraintRows b.tableau, 0 ≤ get b.tableau row n

/-- The sign that a row gets makes its right hand side nonnegative. -/
theorem Run.sign_mul_rhs_nonneg (b : Board τ Rat) (row : Nat) :
    0 ≤ sign b row * get b.tableau row b.rhs := by
  unfold sign
  split
  next hkeeps =>
    simp only [keepsSign, isPositive, isZero, Scalar.isPositive_rat, Scalar.isZero_rat,
      Bool.or_eq_true, Bool.and_eq_true, decide_eq_true_eq] at hkeeps
    rw [one_mul]
    exact hkeeps.elim le_of_lt fun hzero => hzero.1.ge
  next hflips =>
    simp only [keepsSign, isPositive, Scalar.isPositive_rat, Bool.or_eq_true, decide_eq_true_eq,
      not_or, not_lt] at hflips
    rw [neg_one_mul]
    exact neg_nonneg.2 hflips.1

section Lawful

variable [LawfulTableau τ] {b : Board τ Rat} {row c : Nat}

/-- A pivot keeps right hand sides nonnegative if no ratio is smaller than that of its row. -/
theorem Board.Nonnegative.pivot (h : Nonnegative n b) (hrow : row ∈ constraintRows b.tableau)
    (hpos : 0 < get b.tableau row c)
    (hratio : ∀ i ∈ constraintRows b.tableau, i ≠ row → 0 < get b.tableau i c →
      get b.tableau row n / get b.tableau row c ≤ get b.tableau i n / get b.tableau i c) :
    Nonnegative n (b.exchanged (Tableau.pivot b.tableau row c) row c) := by
  refine ⟨h.nrVariables, h.width.trans_eq (ShapedTableau.nrColumns_pivot ..).symm, fun i hi => ?_⟩
  have hi : i ∈ constraintRows b.tableau := by
    rwa [← constraintRows_congr (ShapedTableau.nrRows_pivot b.tableau row c)]
  have hnew : 0 ≤ get b.tableau row n / get b.tableau row c :=
    div_nonneg (h.rhs row hrow) hpos.le
  rw [Board.exchanged, LawfulTableau.get_pivot _ _ _ _ _ hpos.ne']
  split
  next => exact hnew
  next hir =>
    rw [sub_nonneg]
    by_cases hcolumn : 0 < get b.tableau i c
    · exact (le_div_iff₀' hcolumn).1 (hratio i hi hir hcolumn)
    · exact (mul_nonpos_of_nonpos_of_nonneg (not_lt.1 hcolumn) hnew).trans (h.rhs i hi)

theorem Board.Nonnegative.picked (h : Nonnegative n b) {phase : Phase}
    (hpicks : Run.Picks b row c phase) (hphase : phase ≠ .exchange)
    (hrow : row ∈ constraintRows b.tableau) :
    Nonnegative n (b.exchanged (Tableau.pivot b.tableau row c) row c) := by
  have hratio (hpick : Run.ratioRow b c = some row) :
      Nonnegative n (b.exchanged (Tableau.pivot b.tableau row c) row c) :=
    h.pivot hrow (Run.get_pos_of_ratioRow hpick).2 fun i hi _ hpos =>
      h.nrVariables ▸ Run.ratio_le_of_ratioRow hpick hi hpos
  cases hpicks with
  | single hnone hpick =>
    exact h.pivot hrow (Run.get_pos_of_singlePositiveRow hpick).2 fun i hi hir hpos =>
      absurd (Run.eq_of_singlePositiveRow hpick hi hpos) hir
  | ratio hnone hpick => exact hratio hpick
  | profit hselect hpick => exact hratio hpick
  | exchange ha hpick => exact absurd rfl hphase
  | repair hneg hpick =>
    rw [Board.rhs, h.nrVariables] at hneg
    exact absurd (h.rhs row hrow) hneg.not_ge

/-- A profitable column that enters a row of nonnegative right hand side gains something. -/
theorem Tableau.objective_le_pivot {t : τ} (hrow : row ∈ constraintRows t) (hprofit : 0 < get t 0 c)
    (hpos : 0 < get t row c) (hrhs : 0 ≤ get t row n) :
    -get t 0 n ≤ -get (Tableau.pivot t row c) 0 n := by
  have hgain : 0 ≤ get t 0 c * (get t row n / get t row c) :=
    mul_nonneg hprofit.le (div_nonneg hrhs hpos.le)
  rw [LawfulTableau.get_pivot _ _ _ _ _ hpos.ne', if_neg (mem_constraintRows.1 hrow).1.ne]
  exact neg_le_neg (sub_le_self _ hgain)

end Lawful

/-! ## Runs up to the first drive-out -/

/-- What is noted when artificial columns are driven out, which always ends with the last of
these. -/
def Event.isDriveOut : Event → Bool
  | pivoted .exchange _ _ | rowRemoved _ | artificialsDropped => true
  | _ => false

theorem Entry.after_of_not_driveOut {e : Entry τ Rat} (h : e.event.isDriveOut = false) :
    e.after = e.board := by
  unfold after
  split
  next heq => rw [heq] at h; cases h
  next => rfl

/-- Right hand sides are nonnegative unless artificial columns were driven out before. -/
def Run.Ascends (n : Nat) (r : Run τ Rat) : Prop :=
  (∀ e ∈ r.history, e.event.isDriveOut = false) → r.Nonnegative n

variable [LawfulTableau τ]

theorem Run.Ascends.move {r s : Run τ Rat} (h : r.Ascends n) {phase : Phase}
    (hmove : Move phase r s) : s.Ascends n := by
  intro hquiet
  have hsuffix : r.history <:+ s.history :=
    ((Moves.refl r).tail (List.mem_singleton_self phase) hmove).history
  have hr := h fun e he => hquiet e (hsuffix.subset he)
  cases hmove with
  | note event hevent => exact hr
  | mark guard state iterations => exact ⟨hr.nrVariables, hr.width, hr.rhs⟩
  | pivot hrow hc hpicks =>
    refine hr.picked hpicks (fun hphase => ?_) hrow
    subst hphase
    exact absurd (hquiet _ List.mem_cons_self) (by simp [Event.isDriveOut])
  | fill hgaps =>
    have hwidens := widens_addArtificials r
    refine ⟨hwidens.nrVariables.trans hr.nrVariables, hr.width.trans_le hwidens.nrColumns,
      fun i hi => ?_⟩
    rw [hwidens.old i n hr.width]
    exact hr.rhs i (constraintRows_congr hwidens.nrRows ▸ hi)
  | remove hrow hredundant =>
    exact absurd (hquiet _ List.mem_cons_self) (by simp [Event.isDriveOut])
  | drop => exact absurd (hquiet _ List.mem_cons_self) (by simp [Event.isDriveOut])

section Solve

variable (p) (rule : PivotRule) (threshold : Nat)

theorem Run.nonnegative_afterPreparation :
    (afterPreparation τ p rule threshold).Nonnegative n := by
  let b : Board τ Rat := { Board.ofStandardForm p rule threshold with state := .solving }
  obtain ⟨hrows, hcolumns, hadds⟩ := adds_prepared p rule threshold (b := b) rfl rfl
  have hwidth : n < nrColumns (nonnegative b) := hcolumns ▸ Nat.lt_succ_self n
  refine ⟨rfl, hwidth.trans_le hadds.nrColumns, fun row hrow => ?_⟩
  have hrow : row ∈ constraintRows b.tableau := by
    rwa [← constraintRows_congr (hadds.nrRows.trans
      (represents_ofStandardForm p rule threshold).nonnegative.2)]
  have hget : get (afterPreparation τ p rule threshold).tableau row n =
      sign b row * get b.tableau row b.rhs :=
    (hadds.old row n hwidth).trans ((get_nonnegative b row n).trans (if_pos hrow))
  rw [hget]
  exact sign_mul_rhs_nonneg b row

theorem Simplex.nonnegative_moments (places : Nat) :
    let r := (Simplex.new (τ := τ) p rule threshold places).solve.run
    ∀ e earlier, e :: earlier <:+ r.history → (∀ f ∈ e :: earlier, f.event.isDriveOut = false) →
      e.board.Nonnegative n := by
  intro r e earlier he hquiet
  have hmoves := moves_solve (τ := τ) p rule threshold places
  have hsince : (Run.afterPreparation τ p rule threshold).history <:+ e :: earlier :=
    List.suffix_of_suffix_length_le hmoves.history he (Nat.succ_le_succ (Nat.zero_le _))
  have := hmoves.moments (I := fun r => r.Ascends n) (fun _ _ r s hmove hr => hr.move hmove)
    (Run.traced_afterPreparation p rule threshold).latest
    (fun _ => Run.nonnegative_afterPreparation p rule threshold) he hsince hquiet
  rwa [Entry.after_of_not_driveOut (hquiet e List.mem_cons_self)] at this

theorem Simplex.objective_moments (places : Nat) :
    let r := (Simplex.new (τ := τ) p rule threshold places).solve.run
    ∀ e earlier, e :: earlier <:+ r.history → (∀ f ∈ e :: earlier, f.event.isDriveOut = false) →
      ∀ row c, e.event = .pivoted .primal row c → ∃ prev before, earlier = prev :: before ∧
        e.board.tableau = pivot prev.board.tableau row c ∧
        -get prev.board.tableau 0 n ≤ -get e.board.tableau 0 n := by
  intro r e earlier he hquiet row c hevent
  obtain ⟨prev, before, rfl, hrow, -, hpicks, guard, state, iterations, hafter⟩ :=
    (traced_solve p rule threshold places).pivots e earlier he _ _ _ hevent
  have hquiet' : ∀ f ∈ prev :: before, f.event.isDriveOut = false :=
    fun f hf => hquiet f (List.mem_cons_of_mem e hf)
  have hprev := nonnegative_moments p rule threshold places prev before
    ((List.suffix_cons e _).trans he) hquiet'
  rw [Entry.after_of_not_driveOut (hquiet' prev List.mem_cons_self)] at hrow hpicks hafter
  rw [Entry.after_of_not_driveOut (hquiet e List.mem_cons_self)] at hafter
  have htableau : e.board.tableau = pivot prev.board.tableau row c := congrArg Board.tableau hafter
  refine ⟨prev, before, rfl, htableau, ?_⟩
  cases hpicks with
  | profit hselect hpick =>
    rw [htableau]
    exact objective_le_pivot hrow (PivotRule.get_pos_of_select hselect).2
      (Run.get_pos_of_ratioRow hpick).2 (hprev.rhs row hrow)

end Solve

/-- From preparation on and until artificial columns are driven out, no constraint row ever has a
negative right hand side, and no pivot of the primal phase lowers the objective. -/
theorem Simplex.primal_ascent (p : StandardForm Rat n) (rule : PivotRule)
    (threshold places : Nat) :
    let r := (Simplex.new (τ := Dense Rat) p rule threshold places).solve.run
    (∃ first, [first] <:+ r.history ∧ first.event = .prepared) ∧
      ∀ e earlier, e :: earlier <:+ r.history →
        (∀ f ∈ e :: earlier, f.event.isDriveOut = false) →
        (∀ row ∈ constraintRows e.board.tableau, 0 ≤ get e.board.tableau row n) ∧
        ∀ row c, e.event = .pivoted .primal row c → ∃ prev before, earlier = prev :: before ∧
          e.board.tableau = pivot prev.board.tableau row c ∧
          -get prev.board.tableau 0 n ≤ -get e.board.tableau 0 n := by
  refine ⟨⟨_, (moves_solve p rule threshold places).history, rfl⟩, fun e earlier he hquiet => ?_⟩
  exact ⟨(nonnegative_moments p rule threshold places e earlier he hquiet).rhs,
    objective_moments p rule threshold places e earlier he hquiet⟩

/-- Two resources, one of them given with the opposite sign. -/
def ascentProgram : StandardForm Rat 4 where
  cost := #v[2, 1, 0, 0]
  equations := [⟨#v[1, 1, 1, 0], 4⟩, ⟨#v[-1, -2, 0, -1], -6⟩]

/-- The only pivot of the primal phase. -/
theorem Simplex.ascentProgram_ascent :
    let r := (Simplex.new (τ := Dense Rat) ascentProgram .firstProfitable 5 7).solve.run
    ∃ e earlier, e :: earlier <:+ r.history ∧ e.event = .pivoted .primal 1 0 ∧
      (∀ row ∈ constraintRows e.board.tableau, 0 ≤ get e.board.tableau row 4) ∧
      ∃ prev before, earlier = prev :: before ∧
        -get prev.board.tableau 0 4 ≤ -get e.board.tableau 0 4 := by
  intro r
  obtain ⟨-, hall⟩ := primal_ascent ascentProgram .firstProfitable 5 7
  have hmoment := r.moment_suffix (k := 2) (by decide +kernel)
  obtain ⟨hrhs, hgain⟩ := hall _ _ hmoment (by decide +kernel)
  obtain ⟨prev, before, hbefore, -, hle⟩ := hgain 1 0 (by decide +kernel)
  exact ⟨_, _, hmoment, by decide +kernel, hrhs, prev, before, hbefore, hle⟩

end LinProg
