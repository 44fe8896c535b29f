import LinProg.Proofs.Program.Standard

/-!
# Standard form is equivalent

A program and its standard form have the same points, the one seen through `restored`, and these are
worth the same up to direction.  So the two are feasible together, unbounded together, and optimal
at the same points.
-/

namespace LinProg

variable {n : Nat}

def Objective.signed : Objective → Rat → Rat
  | maximize, value => value
  | minimize, value => -value

namespace Objective

theorem signed_add (objective : Objective) (a b : Rat) :
    objective.signed (a + b) = objective.signed a + objective.signed b := by
  cases objective with
  | maximize => rfl
  | minimize => exact neg_add a b

theorem signed_signed (objective : Objective) (a : Rat) :
    objective.signed (objective.signed a) = a := by
  cases objective with
  | maximize => rfl
  | minimize => exact neg_neg a

theorem improves_iff_signed {objective : Objective} {a b : Rat} :
    objective.improves a b = true ↔ objective.signed b < objective.signed a := by
  cases objective with
  | maximize => exact decide_eq_true_iff
  | minimize => exact decide_eq_true_iff.trans neg_lt_neg_iff.symm

theorem noBetter_iff_signed {objective : Objective} {a b : Rat} :
    objective.NoBetter a b ↔ objective.signed a ≤ objective.signed b := by
  rw [NoBetter, ← Bool.not_eq_true, improves_iff_signed, not_lt]

end Objective

namespace LinearProgram

/-- Every bound is improved on by a feasible point. -/
def IsUnbounded (lp : LinearProgram Rat n) : Prop :=
  ∀ bound, ∃ x, lp.Feasible x ∧ lp.objective.improves (lp.value x) bound = true

variable (lp : LinearProgram Float n)

/-- What the standard form is worth at a point, constant included, is what the program is worth at
the restored one. -/
theorem signed_value_restored (z : Fin lp.nrColumns → Rat) :
    lp.objective.signed (lp.exact.value (lp.restored z)) =
      lp.objective.signed lp.exact.constant + (lp.standardValues : StandardForm Rat _).value z := by
  rw [value_restored]
  show lp.objective.signed _ = lp.objective.signed (Exact.ofFloat lp.constant) + _
  cases lp.objective with
  | maximize => rfl
  | minimize => exact (neg_sub' _ _).trans (sub_neg_eq_add _ _)

theorem value_standardValues (z : Fin lp.nrColumns → Rat) :
    (lp.standardValues : StandardForm Rat _).value z =
      lp.objective.signed (dot lp.exact.cost (lp.restored z)) := by
  have h := lp.signed_value_restored z
  rw [value, Objective.signed_add] at h
  exact (add_left_cancel h).symm

theorem exists_feasible_restored_eq {x : Fin n → Rat} (hx : lp.exact.Feasible x) :
    ∃ z, (lp.standardValues : StandardForm Rat _).Feasible z ∧ lp.restored z = x :=
  ⟨lp.extended x, lp.feasible_extended hx, lp.restored_extended x⟩

theorem exists_feasible_standardValues_iff :
    (∃ z, (lp.standardValues : StandardForm Rat _).Feasible z) ↔ ∃ x, lp.exact.Feasible x :=
  ⟨fun ⟨_, hz⟩ => ⟨_, lp.feasible_restored hz⟩, fun ⟨_, hx⟩ => ⟨_, lp.feasible_extended hx⟩⟩

theorem isUnbounded_standardValues_iff :
    (lp.standardValues : StandardForm Rat _).IsUnbounded ↔ lp.exact.IsUnbounded := by
  constructor
  · intro h bound
    obtain ⟨z, hz, hbound⟩ :=
      h (lp.objective.signed bound - lp.objective.signed lp.exact.constant)
    refine ⟨lp.restored z, lp.feasible_restored hz, ?_⟩
    show lp.objective.improves _ _ = true
    rw [Objective.improves_iff_signed, signed_value_restored]
    exact sub_lt_iff_lt_add'.1 hbound
  · intro h bound
    obtain ⟨x, hx, hbound⟩ :=
      h (lp.objective.signed (lp.objective.signed lp.exact.constant + bound))
    obtain ⟨z, hz, rfl⟩ := lp.exists_feasible_restored_eq hx
    refine ⟨z, hz, ?_⟩
    replace hbound : lp.objective.improves _ _ = true := hbound
    rw [Objective.improves_iff_signed, signed_value_restored, Objective.signed_signed] at hbound
    exact lt_of_add_lt_add_left hbound

theorem optimal_standardValues_iff {z : Fin lp.nrColumns → Rat}
    (hz : (lp.standardValues : StandardForm Rat _).Feasible z) :
    (lp.standardValues : StandardForm Rat _).Optimal z ↔ lp.exact.Optimal (lp.restored z) := by
  refine ⟨lp.optimal_restored, fun h => ⟨hz, fun y hy => ?_⟩⟩
  have hbest : lp.objective.NoBetter _ _ := h.best _ (lp.feasible_restored hy)
  rw [Objective.noBetter_iff_signed, signed_value_restored, signed_value_restored] at hbest
  exact le_of_add_le_add_left hbest

/-- The optimal value of the standard form is that of the program, seen from a maximization and
without the constant. -/
theorem optimal_value_iff (value : Rat) :
    (∃ z, (lp.standardValues : StandardForm Rat _).Optimal z ∧
        (lp.standardValues : StandardForm Rat _).value z = value) ↔
      ∃ x, lp.exact.Optimal x ∧ lp.objective.signed (dot lp.exact.cost x) = value := by
  constructor
  · rintro ⟨z, hz, rfl⟩
    exact ⟨_, lp.optimal_restored hz, (lp.value_standardValues z).symm⟩
  · rintro ⟨x, hx, rfl⟩
    obtain ⟨z, hz, rfl⟩ := lp.exists_feasible_restored_eq hx.feasible
    exact ⟨z, (lp.optimal_standardValues_iff hz).2 hx, lp.value_standardValues z⟩

end LinearProgram

/-- A point of the standard form restores to a point of the program, every point of the program is
restored from one of the standard form, and both are worth the same.  So feasibility, unboundedness
and optimal values coincide. -/
theorem standardForm_equivalent (lp : LinearProgram Float n) :
    let p : StandardForm Rat lp.nrColumns := lp.standardValues
    (∀ z, p.Feasible z → lp.exact.Feasible (lp.restored z)) ∧
      (∀ x, lp.exact.Feasible x → ∃ z, p.Feasible z ∧ lp.restored z = x) ∧
      (∀ z, p.value z = lp.objective.signed (dot lp.exact.cost (lp.restored z))) ∧
      ((∃ z, p.Feasible z) ↔ ∃ x, lp.exact.Feasible x) ∧
      (p.IsUnbounded ↔ lp.exact.IsUnbounded) ∧
      (∀ z, p.Feasible z → (p.Optimal z ↔ lp.exact.Optimal (lp.restored z))) ∧
      ∀ value, (∃ z, p.Optimal z ∧ p.value z = value) ↔
        ∃ x, lp.exact.Optimal x ∧ lp.objective.signed (dot lp.exact.cost x) = value := by
  exact ⟨fun _ => lp.feasible_restored, fun _ => lp.exists_feasible_restored_eq,
    lp.value_standardValues, lp.exists_feasible_standardValues_iff,
    lp.isUnbounded_standardValues_iff, fun _ => lp.optimal_standardValues_iff,
    lp.optimal_value_iff⟩

/-- Minimize `1 + x₁ + 3 x₂` subject to `3 x₁ + 2 x₂ ≥ 4`, `x₁ - x₂ = 3` and `2 x₁ ≤ 7`, where
`x₂` is free. -/
def relationsProgram : LinearProgram Float 2 where
  objective := .minimize
  constant := 1
  cost := #v[1, 3]
  constraints := [⟨#v[3, 2], .atLeast, 4⟩, ⟨#v[1, -1], .equal, 3⟩, ⟨#v[2, 0], .atMost, 7⟩]
  free := .ofList [Fin.last 1]

theorem value_relationsProgram_nonneg {x : Fin 2 → Rat} (hx : relationsProgram.exact.Feasible x) :
    0 ≤ relationsProgram.exact.value x := by
  have hminus : Exact.ofFloat (-1) = -1 := by decide +kernel
  have htwo : Exact.ofFloat 2 = 2 := by decide +kernel
  have hthree : Exact.ofFloat 3 = 3 := by decide +kernel
  have hfour : Exact.ofFloat 4 = 4 := by decide +kernel
  have hsum : Exact.ofFloat 4 ≤ dot (#v[3, 2].map Exact.ofFloat) x :=
    hx.rows _ (List.mem_cons_self ..)
  have hdifference : dot (#v[1, -1].map Exact.ofFloat) x = Exact.ofFloat 3 :=
    hx.rows _ (List.mem_cons_of_mem _ (List.mem_cons_self ..))
  show 0 ≤ Exact.ofFloat 1 + dot (#v[1, 3].map Exact.ofFloat) x
  simp only [dot, Fin.sum_univ_two, Vector.get_eq_getElem, Vector.getElem_map, Fin.isValue,
    Fin.val_zero, Fin.val_one, Vector.getElem_mk, List.getElem_toArray, List.getElem_cons_zero,
    List.getElem_cons_succ, Exact.ofFloat_one, hminus, htwo, hthree, hfour] at hsum hdifference ⊢
  linarith

theorem relationsProgram_equivalent :
    ∃ z, (relationsProgram.standardValues : StandardForm Rat _).Optimal z ∧
      relationsProgram.restored z = ![2, -1] ∧
      (relationsProgram.standardValues : StandardForm Rat _).value z = 1 ∧
      ¬(relationsProgram.standardValues : StandardForm Rat _).IsUnbounded := by
  obtain ⟨-, hextend, hvalue, -, hunbounded, hoptimal, -⟩ :=
    standardForm_equivalent relationsProgram
  have hfeasible : relationsProgram.exact.Feasible ![2, -1] := by decide +kernel
  have hbest : relationsProgram.exact.value ![2, -1] = 0 := by decide +kernel
  obtain ⟨z, hz, hrestored⟩ := hextend _ hfeasible
  refine ⟨z, (hoptimal z hz).2 ?_, hrestored, ?_, hunbounded.not.2 fun h => ?_⟩
  · rw [hrestored]
    refine ⟨hfeasible, fun y hy => Objective.noBetter_minimize.2 ?_⟩
    rw [hbest]
    exact value_relationsProgram_nonneg hy
  · rw [hvalue, hrestored]
    decide +kernel
  · obtain ⟨y, hy, himproves⟩ := h 0
    exact absurd (of_decide_eq_true himproves) (not_lt.2 (value_relationsProgram_nonneg hy))

end LinProg
