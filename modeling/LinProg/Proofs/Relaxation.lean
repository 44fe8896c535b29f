import LinProg.Proofs.Program.Standard
import LinProg.Proofs.Simplex.Answer

/-!
# Solved programs

A program that was solved exactly has an optimum, at the point that the basic point of the last
tableau restores to.
-/

namespace LinProg

open Tableau

variable {n : Nat}

/-- The point of a program that an exact run found, before it is rounded. -/
def LinearProgram.exactPoint (lp : LinearProgram Float n) (settings : Settings) : Fin n → Rat :=
  lp.restored fun j => (lp.simplex (Dense Rat) settings).run.basicPoint j

namespace LinearProgram

theorem solve_rational (lp : LinearProgram Float n) {settings : Settings}
    (hbackend : settings.backend = .rational) (v : Verbosity) :
    (lp.solve settings v).1 = lp.solutionOf settings (lp.simplex (Dense Rat) settings) := by
  simp only [solve, hbackend, solveOn]

theorem solutionOf_state {τ α : Type} (settings : Settings) (lp : LinearProgram Float n)
    (s : Simplex τ α) : (lp.solutionOf settings s).state = s.state := by
  unfold solutionOf
  split
  next h => exact h.symm
  next => rfl

theorem solutionOf_iterations {τ α : Type} (settings : Settings) (lp : LinearProgram Float n)
    (s : Simplex τ α) : (lp.solutionOf settings s).iterations = s.iterations := by
  unfold solutionOf
  split <;> rfl

theorem solutionOf_objectiveValue {τ α : Type} (settings : Settings) (lp : LinearProgram Float n)
    {s : Simplex τ α} (h : s.state = .solved) :
    (lp.solutionOf settings s).objectiveValue =
      some (Binary64.roundToPlaces settings.precision (lp.constant + match lp.objective with
        | .maximize => s.report.max
        | .minimize => -s.report.max)) := by
  have h : s.run.state = .solved := h
  unfold solutionOf
  exact (congrArg Solution.objectiveValue (if_pos h)).trans rfl

theorem solutionOf_duals {τ α : Type} (settings : Settings) (lp : LinearProgram Float n)
    {s : Simplex τ α} (h : s.state = .solved) :
    (lp.solutionOf settings s).reducedCost = s.report.reducedCost.take n ∧
      (lp.solutionOf settings s).shadowPrice = s.report.shadowPrice := by
  have h : s.run.state = .solved := h
  unfold solutionOf
  rw [if_pos h]
  exact ⟨rfl, rfl⟩

theorem optimal_exactPoint (lp : LinearProgram Float n) (settings : Settings)
    (hsolved : (lp.simplex (Dense Rat) settings).state = .solved)
    (hround : (lp.simplex (Dense Rat) settings).run.RoundsFaithfully settings.precision) :
    lp.exact.Optimal (lp.exactPoint settings) ∧
      (lp.exact.value (lp.exactPoint settings) = match lp.objective with
        | .maximize => Exact.ofFloat lp.constant -
            get (lp.simplex (Dense Rat) settings).run.tableau 0 lp.nrColumns
        | .minimize => Exact.ofFloat lp.constant +
            get (lp.simplex (Dense Rat) settings).run.tableau 0 lp.nrColumns) ∧
      (lp.simplex (Dense Rat) settings).report.max = Run.rounded settings.precision
        (-get (lp.simplex (Dense Rat) settings).run.tableau 0 lp.nrColumns) := by
  obtain ⟨hmax, -⟩ := Simplex.solve_report (τ := Dense Rat) lp.standardValues
    .largestCoefficient settings.cyclingThreshold settings.precision
  unfold exactPoint
  unfold simplex at hsolved hround ⊢
  obtain ⟨hoptimal, hvalue, hrhs⟩ := Simplex.optimal_basicPoint lp.standardValues
    .largestCoefficient settings.cyclingThreshold settings.precision hsolved hround
  rw [hrhs] at hmax
  exact ⟨lp.optimal_restored hoptimal, lp.value_restored_of_eq_neg hvalue, hmax⟩

end LinearProgram

/-- Solved means optimal, for programs in standard form and for linear programs: the unrounded point
is feasible, worth what the last tableau says, and no feasible point is better. -/
theorem optimal_of_solved :
    (∀ {n : Nat} (p : StandardForm Rat n) (rule : PivotRule) (threshold places : Nat),
      let s := (Simplex.new (τ := Dense Rat) p rule threshold places).solve
      s.state = .solved → s.run.RoundsFaithfully places →
        (p.Optimal fun j => s.run.basicPoint j) ∧
          (p.value fun j => s.run.basicPoint j) = -get s.run.tableau 0 n) ∧
    ∀ {n : Nat} (lp : LinearProgram Float n) (settings : Settings) (v : Verbosity),
      let s := lp.simplex (Dense Rat) settings
      let t := get s.run.tableau 0 lp.nrColumns
      settings.backend = .rational → (lp.solve settings v).1.state = .solved →
      s.run.RoundsFaithfully settings.precision →
        lp.exact.Optimal (lp.exactPoint settings) ∧
        (lp.exact.value (lp.exactPoint settings) = match lp.objective with
          | .maximize => Exact.ofFloat lp.constant - t
          | .minimize => Exact.ofFloat lp.constant + t) ∧
        (lp.solve settings v).1.objectiveValue =
          some (Binary64.roundToPlaces settings.precision (lp.constant + match lp.objective with
            | .maximize => Run.rounded settings.precision (-t)
            | .minimize => -Run.rounded settings.precision (-t))) := by
  refine ⟨fun p rule threshold places hsolved hround => ?_,
    fun lp settings v hbackend hsolved hround => ?_⟩
  · obtain ⟨hoptimal, hvalue, -⟩ :=
      Simplex.optimal_basicPoint p rule threshold places hsolved hround
    exact ⟨hoptimal, hvalue⟩
  · rw [lp.solve_rational hbackend v] at hsolved ⊢
    rw [LinearProgram.solutionOf_state] at hsolved
    obtain ⟨hoptimal, hvalue, hmax⟩ := lp.optimal_exactPoint settings hsolved hround
    rw [LinearProgram.solutionOf_objectiveValue settings lp hsolved, hmax]
    exact ⟨hoptimal, hvalue, rfl⟩

/-- Minimize `1 + x₁ + 2 x₂` subject to `x₁ + x₂ ≥ 1` and `x₂ ≥ -1`, where `x₂` is free. -/
def sampleProgram : LinearProgram Float 2 where
  objective := .minimize
  constant := 1
  cost := #v[1, 2]
  constraints := [⟨#v[1, 1], .atLeast, 1⟩, ⟨#v[0, 1], .atLeast, -1⟩]
  free := .ofList [Fin.last 1]

theorem sampleProgram_optimal :
    (∃ z, (sampleProgram.standardValues : StandardForm Rat _).Optimal z) ∧
      (sampleProgram.solve { backend := .rational } none).1.state = .solved ∧
      ∃ x, sampleProgram.exact.Optimal x ∧ sampleProgram.exact.value x = 1 := by
  obtain ⟨hstandard, -⟩ := optimal_of_solved.1 sampleProgram.standardValues .firstProfitable 5 7
    (by decide +kernel) (by decide +kernel)
  have hsolved : (sampleProgram.solve { backend := .rational } none).1.state = .solved := by
    decide +kernel
  obtain ⟨hoptimal, hvalue, -⟩ := optimal_of_solved.2 sampleProgram { backend := .rational } none
    rfl hsolved (by decide +kernel)
  exact ⟨⟨_, hstandard⟩, hsolved, _, hoptimal, hvalue.trans (by decide +kernel)⟩

end LinProg
