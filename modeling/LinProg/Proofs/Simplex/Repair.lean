import LinProg.Proofs.Simplex.Moves
import LinProg.Proofs.Tableau.Dense

/-!
# The way down

The dual phase is entered without profitable column, and no repair makes one: the column with the
smallest ratio pays for all others.  The objective, which is too good as long as a right hand side
is negative, falls or stays (`repair_keeps_profitless`).  Unless the guard trips, a row that is
left with a negative right hand side has no negative value, so that nothing solves it.
-/

namespace LinProg

open Tableau Board

variable {τ : Type} [Tableau τ Rat] {n : Nat} {p : StandardForm Rat n}

/-! ## One repair -/

structure Board.Exhausted (p : StandardForm Rat n) (b : Board τ Rat) : Prop where
  sound : Sound p b
  profitless : b.Profitless

theorem Board.Exhausted.cost_nonpos {b : Board τ Rat} (h : Exhausted p b) :
    ∀ j < n, get b.tableau 0 j ≤ 0 := by
  intro j hj
  rw [← h.sound.nrVariables] at hj
  exact h.profitless j hj

variable [LawfulTableau τ]

theorem Board.Exhausted.move {r s : Run τ Rat} (h : Exhausted p r.toBoard)
    (hmove : Run.Move .dual r s) : Exhausted p s.toBoard := by
  cases hmove with
  | note event hevent => exact h
  | mark guard state iterations => exact ⟨h.sound.of_eq rfl rfl rfl rfl, h.profitless⟩
  | pivot hrow hc hpicks =>
    have hsound := h.sound.pivot hrow (h.sound.nrVariables ▸ hc) hpicks.get_ne_zero
    cases hpicks with
    | repair hneg hpick => exact ⟨hsound, h.sound.profitless_repair hrow hpick h.profitless⟩

/-- A column without profit that enters a row of negative right hand side gains nothing. -/
theorem Tableau.pivot_objective_le {t : τ} {row c : Nat} (hrow : row ∈ constraintRows t)
    (hprofit : get t 0 c ≤ 0) (hneg : get t row c < 0) (hrhs : get t row n < 0) :
    -get (Tableau.pivot t row c) 0 n ≤ -get t 0 n := by
  have hloss : get t 0 c * (get t row n / get t row c) ≤ 0 :=
    mul_nonpos_of_nonpos_of_nonneg hprofit (div_nonneg_of_nonpos hrhs.le hneg.le)
  rw [LawfulTableau.get_pivot _ _ _ _ _ hneg.ne, if_neg (mem_constraintRows.1 hrow).1.ne]
  linarith

/-! ## The guard -/

instance (event : Event) : Decidable (∃ row, event = .rowCycled row) :=
  match event with
  | .rowCycled row => isTrue ⟨row, rfl⟩
  | .prepared | .pivoted _ _ _ | .artificialsAdded _ | .basisFound | .unboundedColumn _
  | .columnCycled _ | .rowRemoved _ | .artificialsDropped | .rowInfeasible _ _ _ | .finished =>
    isFalse nofun

/-- Whether the guard tripped on a row that was about to be repaired. -/
def Run.RowTripped (r : Run τ Rat) : Prop := ∃ e ∈ r.history, ∃ row, e.event = .rowCycled row

instance (r : Run τ Rat) : Decidable r.RowTripped :=
  inferInstanceAs (Decidable (∃ e ∈ r.history, ∃ row, e.event = .rowCycled row))

omit [LawfulTableau τ] in
theorem Run.solving_repairRows (rows : List Nat) (r : Run τ Rat) (pivoted : Bool)
    (h : r.state = .solving ∨ r.RowTripped) :
    (repairRows rows r pivoted).1.state = .solving ∨ (repairRows rows r pivoted).1.RowTripped := by
  induction rows generalizing r pivoted with
  | nil => exact h
  | cons row rest ih =>
    unfold repairRows
    split
    next =>
      split
      next => exact ih r pivoted h
      next c _ =>
        dsimp only
        split
        · exact .inr ⟨_, List.mem_cons_self, row, rfl⟩
        · refine ih _ true (h.imp_right ?_)
          rintro ⟨e, he, hrow⟩
          exact ⟨e, List.mem_cons_of_mem _ he, hrow⟩
    next => exact ih r pivoted h

omit [LawfulTableau τ] in
/-- The dual phase goes on solving unless the guard trips. -/
theorem Run.solving_dual {r : Run τ Rat} (hstate : r.state = .solving)
    (htrip : ¬r.dual.RowTripped) : r.dual.state = .solving := by
  have hkept : r.dual.state = .solving ∨ r.dual.RowTripped := by
    unfold dual
    rw [if_pos hstate]
    exact rounds_preserves (I := fun s : Run τ Rat => s.state = .solving ∨ s.RowTripped)
      (fun s hs => solving_repairRows _ s false hs) _ _ (.inl hstate)
  exact hkept.resolve_right htrip

/-- A row that the dual phase leaves with a negative right hand side has no solution. -/
theorem Run.Settled.unrepaired {m t : Nat} {r : Run τ Rat} (h : r.Settled p)
    (hshaped : Shaped n m t r.toBoard) (hstate : r.state = .solving)
    (htrip : ¬r.dual.RowTripped) {row : Nat} (hrow : row ∈ constraintRows r.dual.tableau)
    (hneg : get r.dual.tableau row n < 0) :
    (∀ j < n, 0 ≤ get r.dual.tableau row j) ∧ ¬∃ x, p.Feasible x := by
  have hsolving := solving_dual hstate htrip
  rcases dual_spec h.sound h.full hshaped hstate with ⟨hdual, hrepaired⟩ | ⟨hno, -⟩
  · have hall := hrepaired row hrow (by rwa [hdual.sound.rhs])
    rw [hdual.sound.nrVariables] at hall
    exact ⟨hall, infeasible_of_negative hdual.sound hrow hneg hall⟩
  · rw [hsolving] at hno
    cases hno

/-! ## All repairs -/

section Solve

variable (p) (rule : PivotRule) (threshold : Nat)

theorem Run.exhausted_afterPrimal (hstate : (afterPrimal τ p rule threshold).state = .solving) :
    (afterPrimal τ p rule threshold).Settled p ∧
      (afterPrimal τ p rule threshold).Exhausted p := by
  rcases afterPrimal_spec (τ := τ) p rule threshold with hsettled | ⟨hno, -⟩
  · rcases hsettled.progress with ⟨-, hprofitless⟩ | ⟨hunbounded, -⟩
    · exact ⟨hsettled, hsettled.sound, hprofitless⟩
    · rw [hunbounded] at hstate
      cases hstate
  · rw [hno] at hstate
    cases hstate

/-- Nothing is repaired before the dual phase. -/
theorem Run.afterPrimal_history_suffix (places : Nat) :
    let r := (Simplex.new (τ := τ) p rule threshold places).solve.run
    ∀ e earlier, e :: earlier <:+ r.history → ∀ row c, e.event = .pivoted .dual row c →
      (afterPrimal τ p rule threshold).history <:+ earlier := by
  intro r e earlier he row c hevent
  have hbefore : Moves [.start, .primal, .exchange] (afterPreparation τ p rule threshold)
      (afterPrimal τ p rule threshold) :=
    ((moves_begin p rule threshold).mono (by simp)).trans ((moves_primal _).mono (by simp))
  have hnone : ∀ e ∈ (afterPrimal τ p rule threshold).history, ∀ row c,
      e.event ≠ .pivoted .dual row c := by
    refine hbefore.not_pivoted (by simp) fun e he row c heq => ?_
    rw [List.mem_singleton.1 he] at heq
    cases heq
  have hnot (hmem : e ∈ (afterPrimal τ p rule threshold).history) : False :=
    hnone e hmem row c hevent
  have hsuffix := (Simplex.moves_afterPrimal (τ := τ) p rule threshold places).history
  rcases List.suffix_or_suffix_of_suffix hsuffix he with hsince | hsince
  · rcases List.suffix_cons_iff.1 hsince with heq | hsince
    · exact (hnot (heq ▸ List.mem_cons_self)).elim
    · exact hsince
  · exact (hnot (hsince.subset List.mem_cons_self)).elim

/-- No column is profitable at any moment from the dual phase on. -/
theorem Simplex.exhausted_moments (places : Nat)
    (hstate : (Run.afterPrimal τ p rule threshold).state = .solving) :
    let r := (Simplex.new (τ := τ) p rule threshold places).solve.run
    ∀ e earlier, e :: earlier <:+ r.history →
      (Run.afterPrimal τ p rule threshold).history <:+ e :: earlier → Exhausted p e.after := by
  intro r e earlier he hsince
  have hmoves := moves_afterPrimal (τ := τ) p rule threshold places
  refine hmoves.moments (I := fun r => Exhausted p r.toBoard) (fun phase hphase r s hmove hr => ?_)
    (Run.traced_afterPrimal p rule threshold).latest
    (Run.exhausted_afterPrimal p rule threshold hstate).2 he hsince
  obtain rfl := List.mem_singleton.1 hphase
  exact hr.move hmove

/-- Every repair is made on a tableau without profitable column and leaves one, and doesn't raise
the objective. -/
theorem Simplex.exhausted_repairs (places : Nat)
    (hstate : (Run.afterPrimal τ p rule threshold).state = .solving) :
    let r := (Simplex.new (τ := τ) p rule threshold places).solve.run
    ∀ e earlier, e :: earlier <:+ r.history → ∀ row c, e.event = .pivoted .dual row c →
      (∀ j < n, get e.board.tableau 0 j ≤ 0) ∧ ∃ prev before, earlier = prev :: before ∧
        e.board.tableau = pivot prev.after.tableau row c ∧
        -get e.board.tableau 0 n ≤ -get prev.after.tableau 0 n := by
  intro r e earlier he row c hevent
  have hsince := Run.afterPrimal_history_suffix p rule threshold places e earlier he row c hevent
  have hafter : e.after = e.board := by
    rw [Entry.after, hevent]
  have he' := exhausted_moments p rule threshold places hstate e earlier he
    (hsince.trans (List.suffix_cons e earlier))
  rw [hafter] at he'
  obtain ⟨prev, before, rfl, hrow, hc, hpicks, guard, state, iterations, hboard⟩ :=
    (traced_solve p rule threshold places).pivots e earlier he _ _ _ hevent
  have hprev := exhausted_moments p rule threshold places hstate prev before
    ((List.suffix_cons e _).trans he) hsince
  have htableau : e.board.tableau = pivot prev.after.tableau row c :=
    hafter ▸ congrArg Board.tableau hboard
  refine ⟨he'.cost_nonpos, prev, before, rfl, htableau, ?_⟩
  cases hpicks with
  | repair hneg hpick =>
    rw [Board.rhs, hprev.sound.nrVariables] at hneg
    rw [htableau]
    exact pivot_objective_le hrow (hprev.profitless c hc) (Run.repairColumn_some hpick).2.1.1 hneg

end Solve

/-- If the dual phase is entered, no column is profitable then nor after any of its pivots, none of
which raises the objective.  Unless the guard trips, a row that it leaves with a negative right hand
side has no negative value, and then the program is infeasible. -/
theorem Simplex.repair_keeps_profitless (p : StandardForm Rat n) (rule : PivotRule)
    (threshold places : Nat) :
    let s := Run.afterPrimal (Dense Rat) p rule threshold
    let r := (Simplex.new (τ := Dense Rat) p rule threshold places).solve.run
    s.state = .solving →
      (∀ j < n, get s.tableau 0 j ≤ 0) ∧
      (∀ e earlier, e :: earlier <:+ r.history → ∀ row c, e.event = .pivoted .dual row c →
        (∀ j < n, get e.board.tableau 0 j ≤ 0) ∧ ∃ prev before, earlier = prev :: before ∧
          e.board.tableau = pivot prev.after.tableau row c ∧
          -get e.board.tableau 0 n ≤ -get prev.after.tableau 0 n) ∧
      (¬s.dual.RowTripped → ∀ row ∈ constraintRows s.dual.tableau,
        get s.dual.tableau row n < 0 →
          (∀ j < n, 0 ≤ get s.dual.tableau row j) ∧ ¬∃ x, p.Feasible x) := by
  intro s r hstate
  obtain ⟨hsettled, hexhausted⟩ : s.Settled p ∧ s.Exhausted p :=
    Run.exhausted_afterPrimal p rule threshold hstate
  have hrepairs := exhausted_repairs (τ := Dense Rat) p rule threshold places hstate
  exact ⟨hexhausted.cost_nonpos, hrepairs,
    fun htrip row hrow hneg => hsettled.unrepaired (Run.shaped_afterPrimal p rule threshold) hstate
      htrip hrow hneg⟩

/-- The first equation has no nonnegative solution, which shows only after another one was
repaired. -/
def overdrawnProgram : StandardForm Rat 4 where
  cost := #v[-2, 0, 0, -1]
  equations := [⟨#v[0, -1, -1, 0], 1⟩, ⟨#v[-1, 0, 2, 1], 0⟩, ⟨#v[1, 2, -1, 1], 2⟩]

/-- One repair, after which the third row is left. -/
theorem Simplex.overdrawnProgram_repaired :
    let s := Run.afterPrimal (Dense Rat) overdrawnProgram .firstProfitable 5
    let r := (Simplex.new (τ := Dense Rat) overdrawnProgram .firstProfitable 5 7).solve.run
    (∃ e earlier, e :: earlier <:+ r.history ∧ e.event = .pivoted .dual 2 0 ∧
      (∀ j < 4, get e.board.tableau 0 j ≤ 0) ∧ ∃ prev before, earlier = prev :: before ∧
        -get e.board.tableau 0 4 ≤ -get prev.after.tableau 0 4) ∧
      3 ∈ constraintRows s.dual.tableau ∧ get s.dual.tableau 3 4 < 0 ∧
      ¬∃ x, overdrawnProgram.Feasible x := by
  intro s r
  obtain ⟨-, hrepairs, hleft⟩ :=
    repair_keeps_profitless overdrawnProgram .firstProfitable 5 7 (by decide +kernel)
  have hmoment := r.moment_suffix (k := 2) (by decide +kernel)
  obtain ⟨hprofitless, prev, before, hbefore, -, hle⟩ :=
    hrepairs _ _ hmoment 2 0 (by decide +kernel)
  exact ⟨⟨_, _, hmoment, by decide +kernel, hprofitless, prev, before, hbefore, hle⟩,
    by decide +kernel, by decide +kernel,
    (hleft (by decide +kernel) 3 (by decide +kernel) (by decide +kernel)).2⟩

end LinProg
