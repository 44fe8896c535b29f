import LinProg.Proofs.Relaxation
import LinProg.Proofs.Safety.Numbers
import LinProg.Proofs.Safety.Phases

/-!
# Solving never fails

Every accepted program is solved with all accesses checked, and the answer is the one without checks
(`LinearProgram.solve_never_fails`).  Every board of the run has a place in the basis for each row.
-/

namespace LinProg

open Tableau Board
open Numeral (countLimit)

variable {τ : Type} [Tableau τ Rat] {n : Nat}

/-! ## The answer -/

namespace Run

theorem agrees_readRow (places : Nat) (s : Run τ Rat × List Float) (row : Nat) :
    Agrees s.1.toBoard (readRow places s row).1.toBoard := by
  rw [readRow_fst]
  split
  · exact ⟨s.1.guard, .noSolution, s.1.iterations, rfl⟩
  · exact .refl _

theorem length_readRow (places : Nat) (s : Run τ Rat × List Float) (row : Nat) :
    (readRow places s row).2.length = s.2.length := by
  obtain ⟨r, x⟩ := s
  unfold readRow
  dsimp only
  split
  · exact List.length_set ..
  · rfl

theorem readRows_agrees (places : Nat) (r : Run τ Rat) :
    Agrees r.toBoard (r.readRows places).1.toBoard ∧
      (r.readRows places).2.length = r.nrVariables :=
  List.foldlRecOn (motive := fun s : Run τ Rat × List Float =>
    Agrees r.toBoard s.1.toBoard ∧ s.2.length = r.nrVariables) _ _
    ⟨.refl _, List.length_replicate⟩ fun s hs row _ =>
      ⟨hs.1.trans (agrees_readRow places s row), (length_readRow places s row).trans hs.2⟩

end Run

namespace Checked

open CyclingGuard (countsFit)

variable {b : Board τ Rat} {r : Run τ Rat}

theorem readRow_eq (places : Nat) {x : List Float} {row : Nat} (h : r.Fits)
    (hrow : row ∈ constraintRows r.tableau) (hx : x.length = r.nrVariables) :
    readRow places (r, x) row = some (Run.readRow places (r, x) row) := by
  rw [readRow, h.read hrow le_rfl, h.entry hrow, Run.readRow]
  dsimp only [Option.bind_eq_bind, Option.bind_some]
  cases r.basic row with
  | none => rfl
  | some column =>
    dsimp only
    generalize hread : (if Run.isInfeasible r.toBoard _ _ then _ else r : Run τ Rat) = s
    have hn : s.nrVariables = r.nrVariables := by
      rw [← hread]
      split <;> rfl
    split
    next hcolumn =>
      rw [setAt_eq (by omega)]
      rfl
    next hcolumn =>
      rw [List.set_eq_of_length_le (by omega)]
      rfl

theorem readRows_eq (places : Nat) (h : r.Fits) :
    readRows places r = some (r.readRows places) := by
  refine foldlM_eq (I := fun s : Run τ Rat × List Float =>
    Agrees r.toBoard s.1.toBoard ∧ s.2.length = r.nrVariables) _ ?_ _
    ⟨.refl _, List.length_replicate⟩
  rintro ⟨s, x⟩ ⟨hagrees, hx⟩ row hrow
  refine ⟨?_, hagrees.trans (Run.agrees_readRow places (s, x) row),
    (Run.length_readRow places (s, x) row).trans hx⟩
  have hs := h.agrees hagrees
  obtain ⟨guard, state, iterations, hboard⟩ := hagrees
  dsimp only at hboard
  refine readRow_eq places hs ?_ ?_
  · rw [hboard]
    exact hrow
  · rw [hboard]
    exact hx

theorem dualValue_eq (h : b.Fits) {found : Option (Nat × Rat)} (hfound : found ∈ b.dualColumns) :
    dualValue b found = some (Run.dualValue b found) := by
  cases found with
  | none => rfl
  | some found =>
    obtain ⟨column, coefficient⟩ := found
    obtain ⟨hcolumn, hne⟩ := h.tracked column coefficient hfound
    rw [dualValue, read_eq h.costRow (hcolumn.trans_le h.active)]
    exact quotient_eq hne

theorem report_eq (places : Nat) (h : b.Fits) (x : List Float) :
    report places b x = some (Run.report places b x) := by
  have hprofits : (List.range b.nrVariables).mapM (read b.tableau 0) =
      some ((List.range b.nrVariables).map (get b.tableau 0)) :=
    mapM_eq _ fun c hc => h.read_cost (List.mem_range.1 hc).le
  have hdual : b.dualColumns.mapM (dualValue b) = some (b.dualColumns.map (Run.dualValue b)) :=
    mapM_eq _ fun _ hfound => dualValue_eq h hfound
  rw [report, h.read_cost le_rfl, hprofits, hdual]
  simp only [Option.bind_eq_bind, Option.bind_some, List.map_map]
  rfl

/-! ## Programs in standard form -/

section Solve

variable [LawfulTableau τ] (p : StandardForm Rat n) (rule : PivotRule) (threshold places : Nat)

theorem fits_start :
    ({ Run.start (Board.ofStandardForm (τ := τ) p rule threshold) with
      state := .solving } : Run τ Rat).Fits :=
  (fits_ofStandardForm p rule threshold).agrees ⟨_, .solving, _, rfl⟩

theorem length_dualColumns_start :
    (Board.ofStandardForm (τ := τ) p rule threshold).dualColumns.length + 1 =
      nrRows (Board.ofStandardForm (τ := τ) p rule threshold).tableau :=
  (congrArg (· + 1) (slackColumns_spec p).1).trans (nrRows_ofStandardForm p rule threshold).symm

theorem fits_afterPreparation : (Run.afterPreparation τ p rule threshold).Fits :=
  Run.fits_prepare (fits_start p rule threshold) (length_dualColumns_start p rule threshold)

theorem phases_eq :
    phases (Run.start (Board.ofStandardForm (τ := τ) p rule threshold)) =
        Option.guard (countsFit (max 1 threshold) ·.iterations)
          (Run.afterPrimal τ p rule threshold).dual ∧
      (Run.afterPrimal τ p rule threshold).dual.Fits := by
  let r : Run τ Rat := { Run.start (Board.ofStandardForm p rule threshold) with state := .solving }
  have hclimbing : r.prepare.chooseBasis.Climbing n p.equations.length (max 1 threshold) :=
    Run.climbing_begin p rule threshold
  have hprepared : r.prepare.Fits := fits_afterPreparation p rule threshold
  have hchosen := (Run.moves_chooseBasis r.prepare).fits hprepared
  have hprimal := (Run.moves_primal r.prepare.chooseBasis).fits hchosen
  have hzero : r.prepare.chooseBasis.iterations = 0 :=
    (Run.keeps_chooseBasis r.prepare).iterations
  refine ⟨?_, (Run.moves_dual _).fits hprimal⟩
  calc phases (Run.start (Board.ofStandardForm p rule threshold))
      = (prepare r).bind fun r => (chooseBasis r).bind fun r => (primal r).bind dual := rfl
    _ = (primal r.prepare.chooseBasis).bind dual := by
        rw [prepare_eq (fits_start p rule threshold) (length_dualColumns_start p rule threshold),
          Option.bind_some, chooseBasis_eq hprepared, Option.bind_some]
    _ = _ := primal_bind_dual hchosen hclimbing (hzero ▸ rfl)

/-- A program in standard form is solved without failure if all counts fit. -/
theorem solveSimplex_eq :
    solveSimplex (Simplex.new p rule threshold places : Simplex τ Rat) =
      Option.guard (countsFit (max 1 threshold) ·.iterations)
        (Simplex.new p rule threshold places).solve := by
  obtain ⟨hphases, hfits⟩ := phases_eq (τ := τ) p rule threshold
  have hlast : (Run.readRows places _).1.finish.Fits :=
    (Run.moves_finish .dual _).fits (hfits.agrees (Run.readRows_agrees places _).1)
  have hiterations : (Simplex.new p rule threshold places : Simplex τ Rat).solve.iterations =
      (Run.afterPrimal τ p rule threshold).dual.iterations := by
    obtain ⟨-, -, hstarted, -⟩ :=
      Run.dual_cases (Run.shaped_afterPrimal (τ := τ) p rule threshold)
    rw [Simplex.iterations, Simplex.solve_run, Run.iterations_finish,
      (Run.readRows_spec places _ hstarted).2]
  rw [solveSimplex, if_pos (by rfl), Option.guard_eq_ite, hiterations]
  dsimp only [Option.bind_eq_bind]
  rw [show phases (Simplex.new p rule threshold places : Simplex τ Rat).run = _ from hphases,
    Option.guard_eq_ite]
  split
  next =>
    rw [Simplex.solve, if_pos (by rfl)]
    dsimp only [Simplex.new]
    rw [Option.bind_some, readRows_eq places hfits, Option.bind_some, Run.phases_start]
    rw [report_eq places hlast, Option.bind_some]
    rfl
  next => rfl

/-- Without a place in the basis for its row, a program can't even be prepared. -/
example :
    let s : Simplex (Dense Rat) Rat := .new (⟨#v[1], [⟨#v[2], 3⟩]⟩ : StandardForm Rat 1)
      .firstProfitable 5 7
    (solveSimplex s).isSome = true ∧
      (solveSimplex { s with run := { s.run with basis := [] } }).isNone = true := by
  decide +kernel

end Solve

end Checked

section Solve

variable [LawfulTableau τ] (p : StandardForm Rat n) (rule : PivotRule) (threshold places : Nat)

theorem Simplex.fits_history :
    ∀ e ∈ (Simplex.new (τ := τ) p rule threshold places).solve.run.history,
      e.board.Fits ∧ e.after.Fits := by
  have hprepared := Checked.fits_afterPreparation (τ := τ) p rule threshold
  have hhistory : (Run.afterPreparation τ p rule threshold).history =
      [⟨.prepared, (Run.afterPreparation τ p rule threshold).toBoard⟩] := rfl
  refine (Simplex.moves_solve p rule threshold places).fits_history hprepared ?_
  rw [hhistory, List.forall_mem_singleton]
  exact ⟨hprepared, hprepared⟩

theorem Simplex.length_x_solve :
    (Simplex.new (τ := τ) p rule threshold places).solve.report.x.length = n := by
  have hn : (Run.afterPrimal τ p rule threshold).dual.nrVariables = n := calc
    (Run.afterPrimal τ p rule threshold).dual.nrVariables
      = (Run.afterPrimal τ p rule threshold).nrVariables := (Run.moves_dual _).nrVariables
    _ = (Run.begin (Board.ofStandardForm (τ := τ) p rule threshold)).nrVariables :=
      (Run.moves_primal _).nrVariables
    _ = (Run.afterPreparation τ p rule threshold).nrVariables :=
      (Run.moves_begin p rule threshold).nrVariables
    _ = n := rfl
  unfold Simplex.solve
  rw [if_pos (by rfl)]
  dsimp only [Simplex.new, Run.report]
  rw [Run.phases_start]
  exact (Run.readRows_agrees places _).2.trans hn

theorem Simplex.length_reducedCost_solve :
    (Simplex.new (τ := τ) p rule threshold places).solve.report.reducedCost.length = n := by
  obtain ⟨-, hreduced, -⟩ := Simplex.solve_report (τ := τ) p rule threshold places
  rw [hreduced, List.length_map, List.length_range]
  exact (Simplex.moves_solve p rule threshold places).nrVariables

end Solve

/-! ## Linear programs -/

namespace Checked

section Programs

open CyclingGuard (countsFit)

variable [LawfulTableau τ] {lp : LinearProgram Float n}

theorem simplex_eq (h : lp.IsFinite) (settings : Settings) :
    simplex τ settings lp = Option.guard
      (countsFit (max 1 settings.cyclingThreshold) ·.iterations) (lp.simplex τ settings) := by
  have hfinite := h.standardize
  rw [simplex, standardize_eq, Option.bind_eq_bind, Option.bind_some, convert_eq hfinite,
    Option.bind_eq_bind, Option.bind_some, slackColumns_eq hfinite, Option.bind_eq_bind,
    Option.bind_some]
  exact solveSimplex_eq _ .largestCoefficient settings.cyclingThreshold settings.precision

theorem solutionOf_eq (settings : Settings) (lp : LinearProgram Float n) :
    solutionOf settings lp (lp.simplex τ settings) =
      some (lp.solutionOf settings (lp.simplex τ settings)) := by
  have hreduced : (lp.simplex τ settings).report.reducedCost.length = lp.nrColumns :=
    Simplex.length_reducedCost_solve ..
  refine if_pos fun _ => ⟨Simplex.length_x_solve .., ?_⟩
  rw [hreduced, LinearProgram.nrColumns]
  omega

theorem solveOn_eq (h : lp.IsFinite) (settings : Settings) :
    solveOn τ settings lp = Option.guard
      (countsFit (max 1 settings.cyclingThreshold) ·.iterations)
      (lp.solutionOf settings (lp.simplex τ settings)) := by
  rw [solveOn, simplex_eq h, Option.bind_eq_bind, Option.guard_eq_ite, Option.guard_eq_ite,
    LinearProgram.solutionOf_iterations]
  split
  next => exact solutionOf_eq settings lp
  next => rfl

end Programs

end Checked

namespace LinearProgram

theorem solve?_eq (lp : LinearProgram Float n) (settings : Settings) (v : Verbosity) :
    lp.solve? settings v = if 0 < (lp.solve settings v).1.iterations ∧
        (countLimit ≤ 10 * max 1 settings.cyclingThreshold.val ∨
          countLimit ≤ (lp.solve settings v).1.iterations) then none
      else some (lp.solve settings v) := by
  split
  next h => exact Option.guard_eq_none_iff.2 (CyclingGuard.countsFit_eq_false_iff.2 h)
  next h =>
    exact Option.guard_pos (Bool.not_eq_false _ ▸ mt CyclingGuard.countsFit_eq_false_iff.1 h)

theorem solveOn_eq_solve? {lp : LinearProgram Float n} (h : lp.IsFinite) {settings : Settings}
    (hbackend : settings.backend = .rational) (v : Verbosity) :
    Checked.solveOn (Dense Rat) settings lp = (lp.solve? settings v).map Prod.fst := by
  rw [Checked.solveOn_eq h, ← lp.solve_rational hbackend v, solve?, Option.guard_eq_ite,
    Option.guard_eq_ite]
  split <;> rfl

/-- With exact numbers every accepted program is solved without failure, unless one of its pivots
asks for a count beyond 64 bits: ten times the threshold, or the number of pivots.  Apart from that
every access is to what is there, every divisor is not zero and both loops end.  All the while the
basis has one place for each constraint row. -/
theorem solve_fails_only_on_counts {d : Description} {lp : LinearProgram Float d.cost.length}
    (h : d.program? = .ok lp) (settings : Settings) (hbackend : settings.backend = .rational)
    (v : Verbosity) :
    let pivots := (lp.solve settings v).1.iterations
    Checked.solveOn (Dense Rat) settings lp = (lp.solve? settings v).map Prod.fst ∧
      lp.solve? settings v = (if 0 < pivots ∧
          (countLimit ≤ 10 * max 1 settings.cyclingThreshold.val ∨ countLimit ≤ pivots) then none
        else some (lp.solve settings v)) ∧
      (∀ rule threshold,
        (Board.ofStandardForm (τ := Dense Rat) lp.standardValues rule threshold).HasPlaces) ∧
      ∀ e ∈ (lp.simplex (Dense Rat) settings).run.history,
        e.board.HasPlaces ∧ e.after.HasPlaces := by
  refine ⟨solveOn_eq_solve? (Description.isFinite_of_program? h) hbackend v,
    lp.solve?_eq settings v,
    fun rule threshold => (fits_ofStandardForm _ rule threshold).places, ?_⟩
  unfold simplex
  intro e he
  have hfits := Simplex.fits_history lp.standardValues .largestCoefficient
    settings.cyclingThreshold settings.precision e he
  exact ⟨hfits.1.places, hfits.2.places⟩

end LinearProgram

def emptyDescription : Description where
  objective := .minimize
  constant := 0
  cost := []
  matrix := []
  relations := []
  rhs := []
  free := []

/-- Maximize `1 + 2 x₂` subject to `x₁ = 1`, which is said twice, and `2 x₁ + x₂ ≤ 0`, where `x₂` is
free.  Artificial columns are added and replaced, a row is removed and another one repaired. -/
def repeatedDescription : Description where
  objective := .maximize
  constant := 1
  cost := [0, 2]
  matrix := [[1, 0], [2, 1], [1, 0]]
  relations := [.equal, .atMost, .equal]
  rhs := [1, 0, 1]
  free := [2]

/-- Maximize `x₁` subject to `x₁ ≤ 1`, for which one pivot is enough. -/
def unitDescription : Description where
  objective := .maximize
  constant := 0
  cost := [1]
  matrix := [[1]]
  relations := [.atMost]
  rhs := [1]
  free := []

namespace Description

def solved? (d : Description) (settings : Settings) : Option (Solution Float) :=
  d.program?.toOption.map fun lp => (lp.solve settings none).1

theorem accepted_of_solved? {d : Description} {settings : Settings} {pivots : Nat}
    (h : (d.solved? settings).map (·.iterations) = some pivots) :
    ∃ lp, d.program? = .ok lp ∧ (lp.solve settings none).1.iterations = pivots := by
  unfold solved? at h
  cases hp : d.program? with
  | error e =>
    rw [hp] at h
    cases h
  | ok lp =>
    rw [hp] at h
    exact ⟨lp, rfl, Option.some.inj h⟩

end Description

/-- Pivots of all kinds succeed with the threshold that is set by default; with the largest one a
single pivot fails. -/
theorem LinearProgram.unitDescription_fails :
    (∀ d ∈ [emptyDescription, repeatedDescription, unitDescription], ∃ lp, d.program? = .ok lp ∧
      Checked.solveOn (Dense Rat) { backend := .rational } lp =
        some (lp.solve { backend := .rational } none).1) ∧
    ∃ lp, unitDescription.program? = .ok lp ∧
      Checked.solveOn (Dense Rat)
        { backend := .rational, cyclingThreshold := 18446744073709551615 } lp = none := by
  constructor
  · intro d hd
    have hpivots : ∃ pivots < countLimit,
        (d.solved? { backend := .rational }).map (·.iterations) = some pivots := by
      simp only [List.mem_cons, List.not_mem_nil, or_false] at hd
      rcases hd with rfl | rfl | rfl
      · exact ⟨0, by decide, by decide +kernel⟩
      · exact ⟨2, by decide, by decide +kernel⟩
      · exact ⟨1, by decide, by decide +kernel⟩
    obtain ⟨pivots, hlt, hd⟩ := hpivots
    obtain ⟨lp, hlp, hpivots⟩ := Description.accepted_of_solved? hd
    obtain ⟨heq, hfails, -⟩ := solve_fails_only_on_counts hlp { backend := .rational } rfl none
    refine ⟨lp, hlp, ?_⟩
    rw [heq, hfails, hpivots, if_neg]
    · rfl
    · exact fun h => h.2.elim (by decide) (Nat.not_le.2 hlt)
  · obtain ⟨lp, hlp, hpivots⟩ : ∃ lp, unitDescription.program? = .ok lp ∧
        (lp.solve { backend := .rational, cyclingThreshold := 18446744073709551615 }
          none).1.iterations = 1 :=
      Description.accepted_of_solved? (by decide +kernel)
    obtain ⟨heq, hfails, -⟩ := solve_fails_only_on_counts hlp
      { backend := .rational, cyclingThreshold := 18446744073709551615 } rfl none
    refine ⟨lp, hlp, ?_⟩
    rw [heq, hfails, hpivots, if_pos ⟨Nat.one_pos, .inl (by decide)⟩]
    rfl

end LinProg
