import LinProg.Proofs.Simplex.Outcome
import LinProg.Proofs.Tableau.Dense

/-!
# What the answers mean

`solved` comes with an optimal point.  `unbounded` and `noSolution` can both be wrong: a column
that could be increased without bound ends the primal phase while the basic point is not feasible
yet, and the dual phase, which would repair it, is skipped.  The theorems tell exactly when.
-/

namespace LinProg

open Tableau Board

variable {τ : Type} [Tableau τ Rat] {n : Nat} {p : StandardForm Rat n}

/-- The run with the dual phase that it skips once it is unbounded. -/
def Run.resumed (r : Run τ Rat) : Run τ Rat := ({ r with state := .solving } : Run τ Rat).dual

theorem Simplex.answers (p : StandardForm Rat n) (rule : PivotRule) (threshold places : Nat) :
    Run.Answers places (Run.afterPrimal τ p rule threshold).dual
      (Simplex.new (τ := τ) p rule threshold places).solve.run := by
  rw [solve_run]
  exact Run.answers_finish places _

/-- A run that is not profitable anywhere and has a feasible basic point has an optimal one. -/
theorem Run.Completed.optimal {d : Run τ Rat} (h : d.Completed p) (hp : d.Profitless)
    (hx : p.Feasible fun j => d.basicPoint j) : p.Optimal fun j => d.basicPoint j := by
  refine ⟨hx, fun y hy => ?_⟩
  rw [h.sound.value_basicPoint hx]
  exact h.sound.value_le hp hy

theorem Run.Answers.completed {places : Nat} {d r : Run τ Rat} (h : Answers places d r)
    (hd : d.Completed p ∨ d.state = .noSolution ∧ d.Tripped) :
    d.Completed p ∨ r.state = .noSolution ∧ r.Tripped := by
  refine hd.imp_right fun ⟨hstate, htrip⟩ => ⟨?_, htrip.answered h⟩
  rcases h.state with ⟨-, hr⟩ | ⟨-, hr⟩
  · exact hr
  · rw [hr, hstate]
    rfl

/-- A solved program has no profitable column left, and no row contradicts its basic column. -/
theorem Run.Answers.of_solved {places : Nat} {d r : Run τ Rat} (h : Answers places d r)
    (hd : d.Completed p) (hstate : r.state = .solved) :
    d.Profitless ∧ ∀ row ∈ constraintRows d.tableau, ¬d.Contradicts places row := by
  rcases h.state with ⟨-, hr⟩ | ⟨hall, hr⟩
  · rw [hr] at hstate
    cases hstate
  · rcases hd.progress with ⟨-, hprofitless, -⟩ | ⟨hunbounded, -⟩
    · exact ⟨hprofitless, hall⟩
    · rw [hr, hunbounded] at hstate
      cases hstate

theorem Run.Answers.profitless {places : Nat} {d r : Run τ Rat} (h : Answers places d r)
    (hd : d.Completed p) (hstate : r.state = .solved) : ∀ j < n, get r.tableau 0 j ≤ 0 := by
  obtain ⟨state, hboard⟩ := h.board
  obtain ⟨hprofitless, -⟩ := h.of_solved hd hstate
  rw [hboard]
  exact fun j hj => hprofitless j (hd.sound.nrVariables.symm ▸ hj)

theorem Run.Answers.optimal {places : Nat} {d r : Run τ Rat} (h : Answers places d r)
    (hd : d.Completed p) (hstate : r.state = .solved) (hround : r.RoundsFaithfully places) :
    (p.Optimal fun j => r.basicPoint j) ∧
      (p.value fun j => r.basicPoint j) = -get r.tableau 0 n ∧ r.rhs = n := by
  obtain ⟨state, hboard⟩ := h.board
  obtain ⟨hprofitless, hall⟩ := h.of_solved hd hstate
  rw [hboard] at hround ⊢
  have hx := hd.basicPoint_feasible hround hall
  exact ⟨hd.optimal hprofitless hx, hd.sound.value_basicPoint hx, hd.sound.rhs⟩

/-- What an unbounded answer is worth. -/
theorem Run.Answers.of_unbounded {places : Nat} {d r : Run τ Rat} (h : Answers places d r)
    (hd : d.Completed p) (hstate : r.state = .unbounded) :
    (p.IsUnbounded ↔ (∃ x, p.Feasible x) ∧ ∃ j < n, 0 < get r.tableau 0 j) ∧
      (r.RoundsFaithfully places →
        (∃ x, p.Feasible x) ∧ (p.IsUnbounded ∨ p.Optimal fun j => r.basicPoint j)) := by
  obtain ⟨state, hboard⟩ := h.board
  rw [hboard]
  rcases h.state with ⟨-, hr⟩ | ⟨hall, hr⟩
  · rw [hr] at hstate
    cases hstate
  have hprogress : d.Profitless ∨ d.HasRay := by
    rcases hd.progress with ⟨hsolving, -⟩ | ⟨-, hprogress⟩
    · rw [hr, hsolving] at hstate
      cases hstate
    · exact hprogress
  have hray (hr : d.HasRay) {x : Fin n → Rat} (hx : p.Feasible x) : p.IsUnbounded :=
    hd.sound.isUnbounded hd.full (fun ha => hd.infeasible ha ⟨x, hx⟩) hr hx
  refine ⟨⟨fun hunbounded => ?_, ?_⟩, fun hround => ?_⟩
  · obtain ⟨x, hx, hlt⟩ := hunbounded (-get d.tableau 0 n)
    refine ⟨⟨x, hx⟩, ?_⟩
    by_contra hnone
    push Not at hnone
    refine absurd (hd.sound.value_le (fun j hj => hnone j ?_) hx) (not_le.2 hlt)
    exact hd.sound.nrVariables ▸ hj
  · rintro ⟨⟨x, hx⟩, j, hj, hpos⟩
    rcases hprogress with hprofitless | hr
    · exact absurd (hprofitless j (hd.sound.nrVariables.symm ▸ hj)) (not_le.2 hpos)
    · exact hray hr hx
  · have hx := hd.basicPoint_feasible hround hall
    exact ⟨⟨_, hx⟩, hprogress.symm.imp (hray · hx) (hd.optimal · hx)⟩

/-- A run that completed both phases without finding the program unbounded is right to find no
solution. -/
theorem Run.Answers.infeasible_of_solving {places : Nat} {d r : Run τ Rat} (h : Answers places d r)
    (hd : d.Completed p) (hsolving : d.state = .solving) (hstate : r.state = .noSolution) :
    ¬∃ x, p.Feasible x := by
  rcases h.state with ⟨⟨row, hrow, hc⟩, -⟩ | ⟨-, hr⟩
  · rcases hd.of_contradicts hrow hc with hneg | ha
    · rcases hd.progress with ⟨-, -, hrepaired⟩ | ⟨hunbounded, -⟩
      · refine infeasible_of_negative hd.sound hrow hneg fun j hj => ?_
        exact hrepaired row hrow (hd.sound.rhs.symm ▸ hneg) j (hd.sound.nrVariables.symm ▸ hj)
      · rw [hunbounded] at hsolving
        cases hsolving
    · exact hd.infeasible ⟨row, hrow, ha⟩
  · rw [hr, hsolving] at hstate
    cases hstate

variable [LawfulTableau τ]

/-- The dual phase that an unbounded run skips would tell whether there is a feasible point. -/
theorem Run.Settled.feasible_iff {m t : Nat} {s : Run τ Rat} (h : s.Settled p)
    (hshaped : Shaped n m t s.toBoard) (htrip : ¬s.resumed.Tripped) :
    (∃ x, p.Feasible x) ↔ ¬s.HasArtificial ∧
      ∀ row ∈ constraintRows s.resumed.tableau, 0 ≤ get s.resumed.tableau row n := by
  have hs : Sound p ({ s with state := .solving } : Run τ Rat).toBoard :=
    h.sound.of_eq rfl rfl rfl rfl
  have hsolving : Shaped n m t ({ s with state := .solving } : Run τ Rat).toBoard :=
    hshaped.stopped .solving State.noConfusion s.guard rfl rfl
  rcases dual_spec hs h.full hsolving rfl with ⟨hd, hrepaired⟩ | ⟨-, ht⟩
  · change Repairing p { s with state := .solving } s.resumed at hd
    change s.resumed.Repaired at hrepaired
    constructor
    · intro hx
      refine ⟨fun ha => h.infeasible ha hx, fun row hrow => ?_⟩
      by_contra hneg
      refine infeasible_of_negative hd.sound hrow (not_le.1 hneg) (fun j hj => ?_) hx
      exact hrepaired row hrow (hd.sound.rhs.symm ▸ not_le.1 hneg) j
        (hd.sound.nrVariables.symm ▸ hj)
    · rintro ⟨hart, hall⟩
      exact ⟨_, hd.sound.basicPoint_feasible hd.full hall fun row hrow ha =>
        absurd (hd.hasArtificial ⟨row, hrow, ha⟩) hart⟩
  · exact absurd ht htrip

theorem Run.Settled.of_noSolution {m t places : Nat} {s r : Run τ Rat} (h : s.Settled p)
    (hshaped : Shaped n m t s.toBoard) (hd : s.dual.Completed p)
    (hanswers : Answers places s.dual r) (hstate : r.state = .noSolution) :
    (s.state ≠ .unbounded ∨ s.HasArtificial → ¬∃ x, p.Feasible x) ∧
      (s.state = .unbounded → ¬s.resumed.Tripped →
        ((∃ x, p.Feasible x) ↔ ¬s.HasArtificial ∧
          ∀ row ∈ constraintRows s.resumed.tableau, 0 ≤ get s.resumed.tableau row n)) := by
  refine ⟨fun hsure => ?_, fun _ => h.feasible_iff hshaped⟩
  rcases hsure.symm with ha | hne
  · exact h.infeasible ha
  refine hanswers.infeasible_of_solving hd ?_ hstate
  have hsolving : s.state = .solving := by
    rcases h.progress with ⟨hsolving, -⟩ | ⟨hunbounded, -⟩
    · exact hsolving
    · exact absurd hunbounded hne
  rcases dual_spec h.sound h.full hshaped hsolving with ⟨hrepairing, -⟩ | ⟨hno, -⟩
  · exact hrepairing.state
  · rcases hd.progress with ⟨hd, -⟩ | ⟨hd, -⟩ <;> rw [hno] at hd <;> cases hd

theorem Simplex.completed (p : StandardForm Rat n) (rule : PivotRule) (threshold places : Nat) :
    (Run.afterPrimal τ p rule threshold).dual.Completed p ∨
      (Simplex.new (τ := τ) p rule threshold places).solve.run.state = .noSolution ∧
        (Simplex.new (τ := τ) p rule threshold places).solve.run.Tripped :=
  (answers p rule threshold places).completed
    ((Run.phases_spec p rule threshold).imp_left And.right)

theorem Simplex.completed_of_solved {rule : PivotRule} {threshold places : Nat}
    (h : (Simplex.new (τ := τ) p rule threshold places).solve.state = .solved) :
    (Run.afterPrimal τ p rule threshold).dual.Completed p := by
  refine (completed (τ := τ) p rule threshold places).resolve_right fun ⟨hno, _⟩ => ?_
  change (Simplex.new (τ := τ) p rule threshold places).solve.run.state = .solved at h
  rw [hno] at h
  cases h

theorem Simplex.optimal_basicPoint (p : StandardForm Rat n) (rule : PivotRule)
    (threshold places : Nat)
    (h : (Simplex.new (τ := τ) p rule threshold places).solve.state = .solved)
    (hround : (Simplex.new (τ := τ) p rule threshold places).solve.run.RoundsFaithfully places) :
    (p.Optimal fun j => (Simplex.new (τ := τ) p rule threshold places).solve.run.basicPoint j) ∧
      (p.value fun j => (Simplex.new (τ := τ) p rule threshold places).solve.run.basicPoint j) =
        -get (Simplex.new (τ := τ) p rule threshold places).solve.run.tableau 0 n ∧
      (Simplex.new (τ := τ) p rule threshold places).solve.run.rhs = n :=
  (answers (τ := τ) p rule threshold places).optimal (completed_of_solved h) h hround

theorem Simplex.profitless_of_solved {rule : PivotRule} {threshold places : Nat}
    (h : (Simplex.new (τ := τ) p rule threshold places).solve.state = .solved) :
    ∀ j < n, get (Simplex.new (τ := τ) p rule threshold places).solve.run.tableau 0 j ≤ 0 :=
  (answers (τ := τ) p rule threshold places).profitless (completed_of_solved h) h

/-- An unbounded answer is right exactly if there is a feasible point and some variable is still
profitable in the last tableau.  Otherwise, unless rounding hides a right hand side, the program has
an optimum, which the last tableau shows. -/
theorem Simplex.isUnbounded_iff_of_unbounded (p : StandardForm Rat n) (rule : PivotRule)
    (threshold places : Nat)
    (h : (Simplex.new (τ := Dense Rat) p rule threshold places).solve.state = .unbounded) :
    let r := (Simplex.new (τ := Dense Rat) p rule threshold places).solve.run
    (p.IsUnbounded ↔ (∃ x, p.Feasible x) ∧ ∃ j < n, 0 < get r.tableau 0 j) ∧
      (r.RoundsFaithfully places →
        (∃ x, p.Feasible x) ∧ (p.IsUnbounded ∨ p.Optimal fun j => r.basicPoint j)) := by
  have hanswers := answers (τ := Dense Rat) p rule threshold places
  rcases completed (τ := Dense Rat) p rule threshold places with hd | ⟨hno, -⟩
  · exact hanswers.of_unbounded hd h
  · change (Simplex.new (τ := Dense Rat) p rule threshold places).solve.run.state = .unbounded at h
    rw [hno] at h
    cases h

/-- A program whose only profitable column has no positive value at first, but is worthless. -/
def stalledProgram : StandardForm Rat 4 where
  cost := #v[1, 0, 0, 0]
  equations := [⟨#v[0, -1, 1, 0], 0⟩, ⟨#v[-1, 0, 1, 0], 0⟩, ⟨#v[0, 1, 0, 1], 1⟩]

theorem Simplex.stalledProgram_unbounded :
    (Simplex.new (τ := Dense Rat) stalledProgram .largestCoefficient 5 7).solve.state =
        .unbounded ∧
      ¬stalledProgram.IsUnbounded ∧ ∃ x, stalledProgram.Optimal x := by
  have h : (Simplex.new (τ := Dense Rat) stalledProgram .largestCoefficient 5 7).solve.state =
      .unbounded := by decide +kernel
  obtain ⟨hiff, hround⟩ := isUnbounded_iff_of_unbounded stalledProgram .largestCoefficient 5 7 h
  have hbounded : ¬stalledProgram.IsUnbounded := fun hunbounded =>
    absurd (hiff.1 hunbounded).2 (by decide +kernel)
  exact ⟨h, hbounded, _, (hround (by decide +kernel)).2.resolve_left hbounded⟩

/-- Without a tripped guard the answer that there is no solution is right if the primal phase did
not end unbounded, or left an artificial column basic.  If it did end unbounded, the answer is right
exactly if an artificial column stays basic or the dual phase, which is skipped, would leave a
negative right hand side. -/
theorem Simplex.infeasible_iff_of_noSolution (p : StandardForm Rat n) (rule : PivotRule)
    (threshold places : Nat)
    (h : (Simplex.new (τ := Dense Rat) p rule threshold places).solve.state = .noSolution)
    (htrip : ¬(Simplex.new (τ := Dense Rat) p rule threshold places).solve.run.Tripped) :
    let s := Run.afterPrimal (Dense Rat) p rule threshold
    (s.state ≠ .unbounded ∨ s.HasArtificial → ¬∃ x, p.Feasible x) ∧
      (s.state = .unbounded → ¬s.resumed.Tripped →
        ((∃ x, p.Feasible x) ↔ ¬s.HasArtificial ∧
          ∀ row ∈ constraintRows s.resumed.tableau, 0 ≤ get s.resumed.tableau row n)) := by
  rcases Run.phases_spec (τ := Dense Rat) p rule threshold with ⟨hsettled, hd⟩ | ⟨-, ht⟩
  · exact hsettled.of_noSolution (Run.shaped_afterPrimal p rule threshold) hd
      (answers p rule threshold places) h
  · exact absurd (ht.answered (answers p rule threshold places)) htrip

/-- A program with a feasible point and an unbounded objective that is found to have no solution. -/
def hiddenProgram : StandardForm Rat 5 where
  cost := #v[1, 0, 0, 0, 0]
  equations := [⟨#v[0, 1, 0, 1, 0], 1⟩, ⟨#v[0, 0, 1, 0, 1], 1⟩, ⟨#v[0, 1, 1, 0, 0], 2⟩]

theorem Simplex.hiddenProgram_noSolution :
    (Simplex.new (τ := Dense Rat) hiddenProgram .largestCoefficient 5 7).solve.state =
        .noSolution ∧
      ¬(Simplex.new (τ := Dense Rat) hiddenProgram .largestCoefficient 5 7).solve.run.Tripped ∧
      ∃ x, hiddenProgram.Feasible x := by
  have h : (Simplex.new (τ := Dense Rat) hiddenProgram .largestCoefficient 5 7).solve.state =
      .noSolution := by decide +kernel
  have htrip :
      ¬(Simplex.new (τ := Dense Rat) hiddenProgram .largestCoefficient 5 7).solve.run.Tripped := by
    decide +kernel
  obtain ⟨-, hskipped⟩ := infeasible_iff_of_noSolution hiddenProgram .largestCoefficient 5 7 h htrip
  exact ⟨h, htrip, (hskipped (by decide +kernel) (by decide +kernel)).2
    ⟨by decide +kernel, by decide +kernel⟩⟩

end LinProg
