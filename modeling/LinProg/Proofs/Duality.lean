import LinProg.Proofs.Program.Columns
import LinProg.Proofs.Program.Equivalence
import LinProg.Proofs.Relaxation
import LinProg.Proofs.Simplex.DualValues

/-!
# Duality

The dual values of a solved program prove its optimum: combined by them the rows take no less from
any variable than a unit of it is worth, and their right hand sides add up to what the optimal point
is worth.  Between feasible points and feasible dual values that are worth the same, no row has both
a dual value and a slack.
-/

namespace LinProg

open Tableau Board

variable {n : Nat}

namespace LinearProgram

/-! ## Dual values of a linear program -/

section Duality

variable (lp : LinearProgram Rat n) (y : Nat → Rat)

/-- What the rows take from a variable, combined by dual values, beyond what a unit of it is
worth. -/
def reducedCost (v : Fin n) : Rat :=
  (∑ i : Fin lp.constraints.length, y i * lp.constraints[i].coefficients.get v) - lp.profit v

def dualObjective : Rat := ∑ i : Fin lp.constraints.length, y i * lp.constraints[i].rhs

/-- What a point is worth, seen from a maximization. -/
def gain (x : Fin n → Rat) : Rat := ∑ v, lp.profit v * x v

def residual (x : Fin n → Rat) (i : Fin lp.constraints.length) : Rat :=
  lp.constraints[i].rhs - dot lp.constraints[i].coefficients x

/-- Signs of dual values and reduced costs that bound every feasible point. -/
structure DualFeasible : Prop where
  nonneg : ∀ v, v ∉ lp.free.members → 0 ≤ lp.reducedCost y v
  free : ∀ v ∈ lp.free.members, lp.reducedCost y v = 0
  atMost : ∀ i : Fin lp.constraints.length, lp.constraints[i].relation = .atMost → 0 ≤ y i
  atLeast : ∀ i : Fin lp.constraints.length, lp.constraints[i].relation = .atLeast → y i ≤ 0

/-- The gap between dual values and a point, variable by variable and row by row. -/
theorem dualObjective_sub_gain (x : Fin n → Rat) :
    lp.dualObjective y - lp.gain x =
      (∑ v, lp.reducedCost y v * x v) +
        ∑ i : Fin lp.constraints.length, y i * lp.residual x i := by
  have hswap : ∑ v, (∑ i : Fin lp.constraints.length,
        y i * lp.constraints[i].coefficients.get v) * x v =
      ∑ i : Fin lp.constraints.length, y i * dot lp.constraints[i].coefficients x := by
    simp only [dot, Finset.sum_mul, Finset.mul_sum, mul_assoc]
    exact Finset.sum_comm
  simp only [dualObjective, gain, reducedCost, residual, sub_mul, mul_sub, Finset.sum_sub_distrib,
    hswap]
  ring

variable {lp y} {x : Fin n → Rat}

theorem DualFeasible.reducedCost_mul_nonneg (h : lp.DualFeasible y) (hx : lp.Feasible x)
    (v : Fin n) : 0 ≤ lp.reducedCost y v * x v := by
  by_cases hv : v ∈ lp.free.members
  · rw [h.free v hv, zero_mul]
  · exact mul_nonneg (h.nonneg v hv) (hx.signs v hv)

theorem DualFeasible.mul_residual_nonneg (h : lp.DualFeasible y) (hx : lp.Feasible x)
    (i : Fin lp.constraints.length) : 0 ≤ y i * lp.residual x i := by
  have hrow := hx.rows _ (List.getElem_mem i.isLt)
  unfold Constraint.Holds at hrow
  change lp.constraints[i].relation.Holds _ _ at hrow
  unfold residual
  cases hrelation : lp.constraints[i].relation with
  | equal =>
    rw [hrelation] at hrow
    rw [show dot lp.constraints[i].coefficients x = lp.constraints[i].rhs from hrow, sub_self,
      mul_zero]
  | atMost =>
    rw [hrelation] at hrow
    exact mul_nonneg (h.atMost i hrelation) (sub_nonneg.2 hrow)
  | atLeast =>
    rw [hrelation] at hrow
    exact mul_nonneg_of_nonpos_of_nonpos (h.atLeast i hrelation) (sub_nonpos.2 hrow)

theorem DualFeasible.mul_residual_eq_zero (h : lp.DualFeasible y) (hx : lp.Feasible x)
    (heq : lp.gain x = lp.dualObjective y) (i : Fin lp.constraints.length) :
    y i * lp.residual x i = 0 := by
  have hgap := lp.dualObjective_sub_gain y x
  rw [heq, sub_self] at hgap
  have hcosts : 0 ≤ ∑ v, lp.reducedCost y v * x v :=
    Finset.sum_nonneg fun v _ => h.reducedCost_mul_nonneg hx v
  have hrows : 0 ≤ ∑ i : Fin lp.constraints.length, y i * lp.residual x i :=
    Finset.sum_nonneg fun i _ => h.mul_residual_nonneg hx i
  have hzero : ∑ i : Fin lp.constraints.length, y i * lp.residual x i = 0 := by linarith
  exact (Finset.sum_eq_zero_iff_of_nonneg fun i _ => h.mul_residual_nonneg hx i).1 hzero i
    (Finset.mem_univ i)

end Duality

/-- What a point is worth, as a maximization sees it. -/
theorem gain_eq_signed (lp : LinearProgram Rat n) (x : Fin n → Rat) :
    lp.gain x = lp.objective.signed (dot lp.cost x) := by
  unfold gain profit dot
  cases lp.objective with
  | maximize => rfl
  | minimize =>
    simp only [neg_mul, Finset.sum_neg_distrib]
    rfl

theorem gain_restored (lp : LinearProgram Float n) (z : Fin lp.nrColumns → Rat) :
    lp.exact.gain (lp.restored z) = (lp.standardValues : StandardForm Rat _).value z :=
  (lp.exact.gain_eq_signed _).trans (lp.value_standardValues z).symm

end LinearProgram

/-! ## Dual values read off a tableau -/

namespace Board.DualExact

variable {τ : Type} [Tableau τ Rat] {lp : LinearProgram Float n} {b : Board τ Rat}

theorem get_column (h : DualExact (lp.standardValues : StandardForm Rat _) b) (v : Fin n) :
    get b.tableau 0 (lp.column v) = -lp.exact.reducedCost b.shadowPrice v := by
  obtain ⟨row, slacks, hcost, hprofit, -⟩ := lp.exists_exactRow_eq_cost
  have hsum := lp.sum_equations b.shadowPrice (f := fun e => e.coefficients.get (lp.column v))
    (g := fun c => c.coefficients.get v) fun c slacks => lp.get_exactRow_column c.coefficients
      slacks v
  rw [h.profit, hsum, hcost, lp.get_exactRow_column, hprofit, LinearProgram.reducedCost, neg_sub]

theorem get_negativeColumn (h : DualExact (lp.standardValues : StandardForm Rat _) b)
    (k : Fin lp.free.members.length) :
    get b.tableau 0 (lp.negativeColumn k) =
      lp.exact.reducedCost b.shadowPrice (lp.free.members.get k) := by
  obtain ⟨row, slacks, hcost, hprofit, -⟩ := lp.exists_exactRow_eq_cost
  have hsum := lp.sum_equations b.shadowPrice
    (f := fun e => e.coefficients.get (lp.negativeColumn k))
    (g := fun c => -c.coefficients.get (lp.free.members.get k)) fun c slacks =>
      lp.get_exactRow_negativeColumn c.coefficients slacks k
  rw [h.profit, hsum, hcost, lp.get_exactRow_negativeColumn, hprofit, LinearProgram.reducedCost]
  simp only [mul_neg, Finset.sum_neg_distrib]
  ring

theorem get_slackColumn (h : DualExact (lp.standardValues : StandardForm Rat _) b)
    {i : Fin lp.constraints.length}
    (hi : (lp.constraints.get i).relation.isInequality = true) :
    get b.tableau 0 (lp.slackColumn ⟨lp.slackIndex i, lp.slackIndex_lt_nrSlacks i.isLt hi⟩) =
      -(b.shadowPrice i * (lp.constraints.get i).relation.slackTerm 1) := by
  obtain ⟨row, slacks, hcost, -, hslacks⟩ := lp.exists_exactRow_eq_cost
  rw [h.profit, lp.sum_slackColumn b.shadowPrice hi, hcost, lp.get_exactRow_slackColumn, hslacks,
    zero_sub]
  rfl

theorem get_rhs (h : DualExact (lp.standardValues : StandardForm Rat _) b) :
    get b.tableau 0 lp.nrColumns = -lp.exact.dualObjective b.shadowPrice := by
  rw [h.value, lp.sum_equations b.shadowPrice (f := fun e => e.rhs) (g := fun c => c.rhs)
    fun _ _ => rfl]
  rfl

theorem dualFeasible (h : DualExact (lp.standardValues : StandardForm Rat _) b)
    (hprofitless : ∀ j < lp.nrColumns, get b.tableau 0 j ≤ 0) :
    lp.exact.DualFeasible b.shadowPrice := by
  have hnonneg (v : Fin n) : 0 ≤ lp.exact.reducedCost b.shadowPrice v := by
    have := hprofitless (lp.column v) (lp.column v).isLt
    rw [h.get_column] at this
    linarith
  have hslack (i : Fin lp.exact.constraints.length) (r : Relation)
      (hr : lp.exact.constraints[i].relation = r) (hi : r.isInequality = true) :
      0 ≤ b.shadowPrice i * r.slackTerm 1 := by
    rw [lp.getElem_exact] at hr
    obtain rfl : lp.constraints[i.cast lp.length_exact].relation = r := hr
    exact neg_nonpos.1 ((h.get_slackColumn hi).symm.trans_le (hprofitless _ (Fin.isLt _)))
  refine ⟨fun v _ => hnonneg v, fun v hv => ?_, fun i hi => ?_, fun i hi => ?_⟩
  · obtain ⟨k, rfl⟩ := List.get_of_mem (show v ∈ lp.free.members from hv)
    have := hprofitless (lp.negativeColumn k) (lp.negativeColumn k).isLt
    rw [h.get_negativeColumn] at this
    exact le_antisymm this (hnonneg _)
  · simpa [Relation.slackTerm] using hslack i .atMost hi rfl
  · simpa [Relation.slackTerm] using hslack i .atLeast hi rfl

end Board.DualExact

/-! ## Solved programs -/

namespace LinearProgram

variable (lp : LinearProgram Float n) (settings : Settings)

theorem dualExact_simplex : DualExact (lp.standardValues : StandardForm Rat _)
    (lp.simplex (Dense Rat) settings).run.toBoard := by
  unfold simplex
  exact (Simplex.dualExact_solve lp.standardValues .largestCoefficient settings.cyclingThreshold
    settings.precision).1

theorem profitless_simplex (hsolved : (lp.simplex (Dense Rat) settings).state = .solved) :
    ∀ j < lp.nrColumns, get (lp.simplex (Dense Rat) settings).run.tableau 0 j ≤ 0 := by
  unfold simplex at hsolved ⊢
  exact Simplex.profitless_of_solved hsolved

/-- The point of a solved program is worth what its dual values add up to. -/
theorem gain_exactPoint (hsolved : (lp.simplex (Dense Rat) settings).state = .solved)
    (hround : (lp.simplex (Dense Rat) settings).run.RoundsFaithfully settings.precision) :
    ∃ z, (lp.standardValues : StandardForm Rat _).Optimal z ∧
      lp.restored z = lp.exactPoint settings ∧
      (lp.standardValues : StandardForm Rat _).value z =
        lp.exact.dualObjective (lp.simplex (Dense Rat) settings).run.shadowPrice := by
  have hrhs := (lp.dualExact_simplex settings).get_rhs
  refine ⟨_, ?_, rfl, ?_⟩
  · unfold simplex at hsolved hround ⊢
    exact (Simplex.optimal_basicPoint _ _ _ _ hsolved hround).1
  · rw [← neg_eq_iff_eq_neg.2 hrhs]
    unfold simplex at hsolved hround ⊢
    exact (Simplex.optimal_basicPoint _ _ _ _ hsolved hround).2.1

theorem report_simplex (hsolved : (lp.simplex (Dense Rat) settings).state = .solved)
    (hround : (lp.simplex (Dense Rat) settings).run.RoundsFaithfully settings.precision) :
    (lp.simplex (Dense Rat) settings).report.reducedCost.take n =
        (List.finRange n).map (fun v => Run.rounded settings.precision
          (lp.exact.reducedCost (lp.simplex (Dense Rat) settings).run.shadowPrice v)) ∧
      (lp.simplex (Dense Rat) settings).report.shadowPrice =
        (List.range lp.constraints.length).map fun i =>
          Run.rounded settings.precision ((lp.simplex (Dense Rat) settings).run.shadowPrice i) := by
  have hexact := lp.dualExact_simplex settings
  unfold simplex at hexact hsolved hround ⊢
  obtain ⟨-, hreduced, hprices⟩ := Simplex.solve_report (τ := Dense Rat) lp.standardValues
    .largestCoefficient settings.cyclingThreshold settings.precision
  obtain ⟨-, -, hwidth⟩ := Simplex.optimal_basicPoint _ _ _ _ hsolved hround
  rw [hreduced, hprices]
  generalize (Simplex.new (τ := Dense Rat) lp.standardValues .largestCoefficient
    settings.cyclingThreshold settings.precision).solve = s at hexact hwidth ⊢
  constructor
  · refine List.ext_getElem ?_ fun j hj hj' => ?_
    · simp [show s.run.nrVariables = lp.nrColumns from hwidth, nrColumns, Nat.add_assoc]
    · have hjn : j < n := by simpa using hj'
      have hcolumn : get s.run.tableau 0 j = _ := hexact.get_column ⟨j, hjn⟩
      simp [hcolumn]
  · refine List.ext_getElem ?_ fun i hi hi' => ?_
    · simp [hexact.length, lp.length_equations]
    · rw [List.length_map] at hi
      simp [Board.shadowPrice, List.getD_eq_getElem?_getD, List.getElem?_eq_getElem hi]

end LinearProgram

/-- Dual values are exact at every moment: at each event after the preparation and at the end, the
cost row is the cost of the program less the rows that were given, combined by the dual values.
Those of a solved program are feasible, no row has both a dual value and a slack, and the right hand
sides add up to the optimum of the standard form.  What is reported are the reduced costs and the
dual values, each rounded. -/
theorem exact_duals :
    (∀ {n : Nat} (p : StandardForm Rat n) (rule : PivotRule) (threshold places : Nat),
      let r := (Simplex.new (τ := Dense Rat) p rule threshold places).solve.run
      DualExact p r.toBoard ∧ ∀ e ∈ r.history, DualExact p e.board) ∧
    ∀ {n : Nat} (lp : LinearProgram Float n) (settings : Settings) (v : Verbosity),
      let r := (lp.simplex (Dense Rat) settings).run
      settings.backend = .rational → (lp.solve settings v).1.state = .solved →
      r.RoundsFaithfully settings.precision →
        (lp.solve settings v).1.reducedCost = (List.finRange n).map (fun j =>
          Run.rounded settings.precision (lp.exact.reducedCost r.shadowPrice j)) ∧
        (lp.solve settings v).1.shadowPrice = (List.range lp.constraints.length).map (fun i =>
          Run.rounded settings.precision (r.shadowPrice i)) ∧
        lp.exact.DualFeasible r.shadowPrice ∧
        (∀ i : Fin lp.exact.constraints.length,
          r.shadowPrice i * lp.exact.residual (lp.exactPoint settings) i = 0) ∧
        ∃ z, (lp.standardValues : StandardForm Rat _).Optimal z ∧
          lp.restored z = lp.exactPoint settings ∧
          (lp.standardValues : StandardForm Rat _).value z =
            lp.exact.dualObjective r.shadowPrice := by
  refine ⟨fun p rule threshold places => Simplex.dualExact_solve p rule threshold places,
    fun lp settings v hbackend hsolved hround => ?_⟩
  rw [lp.solve_rational hbackend v] at hsolved ⊢
  rw [LinearProgram.solutionOf_state] at hsolved
  obtain ⟨hcosts, hprices⟩ := LinearProgram.solutionOf_duals settings lp hsolved
  obtain ⟨hreduced, hshadow⟩ := lp.report_simplex settings hsolved hround
  obtain ⟨z, hz, hrestored, hvalue⟩ := lp.gain_exactPoint settings hsolved hround
  have hdual := (lp.dualExact_simplex settings).dualFeasible
    (lp.profitless_simplex settings hsolved)
  refine ⟨hcosts.trans hreduced, hprices.trans hshadow, hdual, fun i => ?_, z, hz, hrestored,
    hvalue⟩
  rw [← hrestored]
  exact hdual.mul_residual_eq_zero (lp.feasible_restored hz.feasible)
    ((lp.gain_restored z).trans hvalue) i

theorem sampleProgram_exact_duals :
    (sampleProgram.solve { backend := .rational } none).1.state = .solved ∧
      ∃ y : Nat → Rat, y 0 = -1 ∧ y 1 = -1 ∧ sampleProgram.exact.DualFeasible y ∧
        ∃ z, (sampleProgram.standardValues : StandardForm Rat _).Optimal z ∧
          (sampleProgram.standardValues : StandardForm Rat _).value z = 0 := by
  have hsolved : (sampleProgram.solve { backend := .rational } none).1.state = .solved := by
    decide +kernel
  obtain ⟨-, -, hdual, -, z, hz, -, hvalue⟩ := exact_duals.2 sampleProgram
    { backend := .rational } none rfl hsolved (by decide +kernel)
  exact ⟨hsolved, _, by decide +kernel, by decide +kernel, hdual, z, hz,
    hvalue.trans (by decide +kernel)⟩

end LinProg
