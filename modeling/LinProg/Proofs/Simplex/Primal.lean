import LinProg.Proofs.Simplex.Artificial
import LinProg.Proofs.Simplex.Termination

/-!
# The primal phase

The loop leaves a settled board: no column is profitable, or one can be increased without bound, and
an artificial column that is still basic shows that the program is infeasible.
-/

namespace LinProg

open Tableau Board

variable {τ : Type} [Tableau τ Rat] {n : Nat} {p : StandardForm Rat n}

/-! ## Choice of a column -/

namespace PivotRule

theorem le_of_foldl_better (t : τ) (columns : List Nat) (hne : columns ≠ []) :
    ∃ c ∈ columns, columns.foldl (better t) none = some c ∧
      ∀ j ∈ columns, get t 0 j ≤ get t 0 c := by
  induction columns using List.reverseRecOn with
  | nil => exact absurd rfl hne
  | append_singleton columns j ih =>
    rw [List.foldl_append, List.foldl_cons, List.foldl_nil]
    by_cases hnil : columns = []
    · subst hnil
      exact ⟨j, by simp, rfl, by simp⟩
    · obtain ⟨c, hc, hfold, hle⟩ := ih hnil
      have hcompare : Tableau.compare t (0, j) (0, c) = .gt ↔ get t 0 c < get t 0 j :=
        Scalar.compare?_gt_rat
      rw [hfold]
      simp only [better, hcompare, List.mem_append, List.mem_singleton]
      by_cases hj : get t 0 c < get t 0 j
      · refine ⟨j, .inr rfl, if_pos hj, ?_⟩
        rintro i (hi | rfl)
        · exact (hle i hi).trans hj.le
        · exact le_rfl
      · refine ⟨c, .inl hc, if_neg hj, ?_⟩
        rintro i (hi | rfl)
        · exact hle i hi
        · exact not_lt.1 hj

theorem get_pos_of_select {rule : PivotRule} {t : τ} {m c : Nat}
    (h : rule.select t m = some c) : c < m ∧ 0 < get t 0 c := by
  cases rule with
  | largestCoefficient =>
    obtain ⟨hfold, hpos⟩ := Option.filter_eq_some_iff.1 h
    by_cases hm : List.range m = []
    · rw [hm] at hfold
      cases hfold
    · obtain ⟨d, hd, hfold', -⟩ := le_of_foldl_better t (List.range m) hm
      obtain rfl := Option.some.inj (hfold'.symm.trans hfold)
      exact ⟨List.mem_range.1 hd, by simpa [isPositive] using hpos⟩
  | firstProfitable =>
    exact ⟨List.mem_range.1 (List.mem_of_find?_eq_some h), by
      simpa [isPositive] using List.find?_some h⟩

theorem get_nonpos_of_select_none {rule : PivotRule} {t : τ} {m : Nat}
    (h : rule.select t m = none) : ∀ j < m, get t 0 j ≤ 0 := by
  intro j hj
  have hmem : j ∈ List.range m := List.mem_range.2 hj
  cases rule with
  | largestCoefficient =>
    obtain ⟨c, -, hfold, hle⟩ := le_of_foldl_better t (List.range m) (List.ne_nil_of_mem hmem)
    simp only [select, hfold, isPositive, Scalar.isPositive_rat, Option.filter_eq_none_iff] at h
    exact (hle j hmem).trans (not_lt.1 (by simpa using h))
  | firstProfitable =>
    have := List.find?_eq_none.1 h j hmem
    simpa [isPositive] using this

end PivotRule

variable [LawfulTableau τ]

/-! ## One round -/

def Event.isTrip : Event → Bool
  | columnCycled _ => true
  | rowCycled _ => true
  | _ => false

def Run.Tripped (r : Run τ Rat) : Prop := ∃ e ∈ r.history, e.event.isTrip = true

instance (r : Run τ Rat) : Decidable r.Tripped :=
  inferInstanceAs (Decidable (∃ e ∈ _, _))

/-- What holds while the primal phase is running. -/
structure Run.Raising (p : StandardForm Rat n) (r : Run τ Rat) : Prop where
  sound : Sound p r.toBoard
  full : r.IsFull
  state : r.state = .solving ∨ r.state = .unbounded

/-- What a primal phase leaves if the guard doesn't trip. -/
structure Run.Settled (p : StandardForm Rat n) (r : Run τ Rat) : Prop where
  sound : Sound p r.toBoard
  full : r.IsFull
  infeasible : r.HasArtificial → ¬∃ x, p.Feasible x
  progress : r.state = .solving ∧ r.Profitless ∨
    r.state = .unbounded ∧ (r.Profitless ∨ r.HasRay)

/-- Driving artificial columns out goes on or settles the run. -/
theorem Run.Raising.driveOut {r : Run τ Rat} (h : r.Raising p)
    (hprogress : r.state = .solving ∧ r.Profitless ∨
      r.state = .unbounded ∧ (r.Profitless ∨ r.HasRay)) :
    (r.driveOut.2 = true → r.driveOut.1.Raising p) ∧
      (r.driveOut.2 = false → r.driveOut.1.Settled p) := by
  have hout := Run.drivenOut h.sound h.full
  refine ⟨fun _ => ⟨hout.sound, hout.full, hout.state ▸ h.state⟩, fun hdone => ?_⟩
  have htrims := hout.trims hdone
  refine ⟨hout.sound, hout.full, hout.infeasible hdone, ?_⟩
  rw [hout.state]
  exact hprogress.imp (.imp_right htrims.profitless)
    (.imp_right (.imp htrims.profitless htrims.hasRay))

/-- A round pivots, or drives artificial columns out, or trips the guard. -/
theorem Run.Raising.primalStep {r : Run τ Rat} (h : r.Raising p) :
    (r.primalStep.2 = true → r.primalStep.1.Raising p) ∧
      (r.primalStep.2 = false → r.primalStep.1.Settled p ∨
        r.primalStep.1.state = .noSolution ∧ r.primalStep.1.Tripped) := by
  unfold Run.primalStep
  split
  next hselect =>
    have hprofitless : r.Profitless := PivotRule.get_nonpos_of_select_none hselect
    have hout := h.driveOut
      (h.state.imp (⟨·, hprofitless⟩) (⟨·, .inl hprofitless⟩))
    exact ⟨hout.1, fun e => .inl (hout.2 e)⟩
  next c hselect =>
    obtain ⟨hc, hpos⟩ := PivotRule.get_pos_of_select hselect
    split
    next hratio =>
      let s : Run τ Rat := { r.note (.unboundedColumn c) with state := .unbounded }
      have hs : s.Raising p :=
        ⟨h.sound.of_eq rfl rfl rfl rfl, h.full, .inr rfl⟩
      have hray : s.HasRay := ⟨c, hc, hpos, fun row hrow => get_nonpos_of_ratioRow_none hratio hrow⟩
      have hout := hs.driveOut (.inr ⟨rfl, .inr hray⟩)
      exact ⟨hout.1, fun e => .inl (hout.2 e)⟩
    next row hratio =>
      obtain ⟨hrow, hget⟩ := get_pos_of_ratioRow hratio
      dsimp only
      split
      next =>
        exact ⟨fun e => (by cases e), fun _ => .inr ⟨rfl, _, List.mem_cons_self, rfl⟩⟩
      next =>
        have hcn : c < n := by rwa [h.sound.nrVariables] at hc
        have hs := h.sound.pivot hrow hcn hget.ne'
        exact ⟨fun _ => ⟨hs.of_eq rfl rfl rfl rfl, h.full.exchanged h.sound hrow (by simp),
          h.state⟩, fun e => (by cases e)⟩

/-! ## The whole phase -/

/-- A primal phase settles a run unless the guard trips. -/
theorem Run.Raising.primal {m t : Nat} {r : Run τ Rat} (h : r.Raising p)
    (hclimbing : r.Climbing n m t) :
    r.primal.Settled p ∨ r.primal.state = .noSolution ∧ r.primal.Tripped := by
  obtain ⟨last, hlast, hstep⟩ := hclimbing.ends.1.last_step (fun s hs => hs.primalStep.1) h
  have hdone := hlast.primalStep.2 (by rw [hstep])
  rwa [hstep] at hdone

end LinProg
