import LinProg.Proofs.Simplex.Kept
import LinProg.Proofs.Tableau.Lawful
import Mathlib.Order.Interval.Finset.Nat

/-!
# The simplex method ends

Both loops end on any storage, whatever its numbers are.  A pivot that the guard lets pass is one of
at most `CyclingGuard.limit`, and a round of the primal phase that makes no such pivot but asks for
another one has taken a row from an artificial column.  A round of the dual phase that asks for
another one has made such a pivot.
-/

namespace LinProg

open Tableau Board

variable {τ α : Type} [Tableau τ α] [Scalar α] {n m t before : Nat}

theorem PivotRule.lt_of_better {u : τ} {best : Option Nat} {column : Nat}
    (hbest : ∀ c, best = some c → c < n) (hcolumn : column < n) :
    ∀ c, better u best column = some c → c < n := by
  intro c hc
  cases best with
  | none => exact Option.some.inj hc ▸ hcolumn
  | some current =>
    unfold better at hc
    dsimp only at hc
    split at hc
    · exact Option.some.inj hc ▸ hcolumn
    · exact hbest c hc

theorem PivotRule.lt_of_foldl_better {u : τ} :
    ∀ c, (List.range n).foldl (better u) none = some c → c < n :=
  List.foldlRecOn (motive := fun best => ∀ c, best = some c → c < n) _ _ (fun _ h => (by cases h))
    fun _ hbest _ hcolumn => lt_of_better hbest (List.mem_range.1 hcolumn)

theorem PivotRule.lt_of_select {rule : PivotRule} {u : τ} {column : Nat}
    (h : rule.select u n = some column) : column < n := by
  cases rule with
  | firstProfitable => exact List.mem_range.1 (List.mem_of_find?_eq_some h)
  | largestCoefficient => exact lt_of_foldl_better column (Option.filter_eq_some_iff.1 h).1

variable [ShapedTableau τ]

namespace Run

/-! ## The primal phase -/

structure Climbing (n m t : Nat) (r : Run τ α) : Prop where
  shaped : Shaped n m t r.toBoard
  paced : Paced (Finset.range n) 0 r.toBoard

theorem climbing_begin (p : StandardForm α n) (rule : PivotRule) (threshold : Nat) :
    Climbing n p.equations.length (max 1 threshold)
      (begin (.ofStandardForm p rule threshold) : Run τ α) :=
  ⟨(shaped_begin p rule threshold).1, (shaped_begin p rule threshold).2⟩

/-- Pivots and exchanges that are left to the primal phase. -/
def primalLeft (n t : Nat) (r : Run τ α) : Nat :=
  CyclingGuard.limit n t n - r.iterations + r.nrArtificial

/-- What a round of the primal phase makes of a run. -/
structure Climbs (n m t : Nat) (r : Run τ α) (out : Run τ α × Bool) : Prop where
  shaped : Shaped n m t out.1.toBoard
  iterations : out.1.iterations ≤ CyclingGuard.limit n t n
  again : out.2 = true → Climbing n m t out.1 ∧ out.1.primalLeft n t < r.primalLeft n t

omit [Scalar α] [ShapedTableau τ] in
theorem Climbing.iterations_le {r : Run τ α} (h : Climbing n m t r) :
    r.iterations ≤ CyclingGuard.limit n t n := by
  have hle := h.paced.iterations_le h.shaped
  rwa [Finset.card_range, Nat.zero_add] at hle

theorem Climbing.driveOut {r : Run τ α} (h : Climbing n m t r) : Climbs n m t r r.driveOut := by
  obtain ⟨hkeeps, hless⟩ := exchanges_driveOut h.shaped
  have hs := h.shaped.keeps hkeeps
  refine ⟨hs, ?_, fun hagain => ⟨⟨hs, h.paced.keeps hkeeps⟩, ?_⟩⟩
  · rw [hkeeps.iterations]
    exact h.iterations_le
  · rw [primalLeft, hkeeps.iterations]
    exact Nat.add_lt_add_left (hless hagain) _

theorem Climbing.primalStep {r : Run τ α} (h : Climbing n m t r) :
    Climbs n m t r r.primalStep := by
  have hs := h.shaped
  unfold Run.primalStep
  split
  next => exact h.driveOut
  next column hcolumn =>
    have hlt : column < n := hs.nrVariables ▸ PivotRule.lt_of_select hcolumn
    split
    next =>
      have hdrive := Climbing.driveOut (n := n) (m := m) (t := t)
        (r := { r.note (.unboundedColumn column) with state := .unbounded })
        ⟨hs.stopped .unbounded State.noConfusion r.guard rfl rfl, h.paced.idle, h.paced.tallies,
          h.paced.iterations⟩
      exact ⟨hdrive.shaped, hdrive.iterations, hdrive.again⟩
    next row _ =>
      dsimp only
      split
      next =>
        exact ⟨hs.stopped .noSolution State.noConfusion (r.guard.record column) rfl rfl,
          h.iterations_le, fun hagain => (by cases hagain)⟩
      next htrip =>
        have hnext : Climbing n m t ({ r with
            guard := r.guard.record column
            iterations := r.iterations + 1 }.pivot .primal row column) :=
          ⟨shaped_counted hs column .primal row column, paced_counted h.paced
            (Finset.mem_range.2 hlt) (Bool.not_eq_true _ ▸ htrip) .primal row column⟩
        refine ⟨hnext.shaped, hnext.iterations_le, fun _ => ⟨hnext, ?_⟩⟩
        refine Nat.add_lt_add_of_lt_of_le
          (Nat.sub_lt_sub_left hnext.iterations_le (Nat.lt_succ_self _)) ?_
        exact nrArtificial_pivot_le { r with guard := _, iterations := _ } .primal
          (hlt.trans hs.firstArtificial)

/-- The primal phase ends by itself within its rounds. -/
theorem Climbing.ends {r : Run τ α} (h : Climbing n m t r) :
    Ends Run.primalStep r r.primal ∧
      (rounds Run.primalStep (primalRounds r.toBoard) r).2 = false := by
  have hfuel : r.primalLeft n t < primalRounds r.toBoard := by
    have hlimit := CyclingGuard.limit_le n n h.shaped.threshold_pos
    have hheld : r.nrArtificial ≤ r.basis.length := List.countP_le_length
    rw [primalRounds, h.shaped.nrVariables, h.shaped.threshold, primalLeft]
    omega
  exact rounds_ends (fun s hs hagain => hs.primalStep.again hagain) _ r h hfuel

theorem Climbing.primal {r : Run τ α} (h : Climbing n m t r) :
    Shaped n m t r.primal.toBoard ∧ r.primal.iterations ≤ CyclingGuard.limit n t n := by
  obtain ⟨last, hlast, heq⟩ :=
    h.ends.1.last_step (fun s hs hagain => (hs.primalStep.again hagain).1) h
  have hclimbs := hlast.primalStep
  rw [heq] at hclimbs
  exact ⟨hclimbs.shaped, hclimbs.iterations⟩

/-! ## The dual phase -/

/-- A run in its dual phase, with `size` rows and `before` iterations made before. -/
structure Descending (n m t size before : Nat) (r : Run τ α) : Prop where
  shaped : Shaped n m t r.toBoard
  basis : r.basis.length = size
  paced : Paced (Finset.Icc 1 size) before r.toBoard

def dualLeft (n t size before : Nat) (r : Run τ α) : Nat :=
  before + CyclingGuard.limit n t size - r.iterations

/-- What a pass over some rows makes of a run. -/
structure Descends (n m t size before : Nat) (r : Run τ α) (pivoted : Bool)
    (out : Run τ α × Bool) : Prop where
  shaped : Shaped n m t out.1.toBoard
  iterations : out.1.iterations ≤ before + CyclingGuard.limit n t size
  again : out.2 = true → Descending n m t size before out.1 ∧ r.iterations ≤ out.1.iterations ∧
    (pivoted = false → r.iterations < out.1.iterations)

omit [Scalar α] [ShapedTableau τ] in
theorem Descending.iterations_le {size : Nat} {r : Run τ α}
    (h : Descending n m t size before r) :
    r.iterations ≤ before + CyclingGuard.limit n t size := by
  have hle := h.paced.iterations_le h.shaped
  rwa [Nat.card_Icc, Nat.add_sub_cancel] at hle

omit [Scalar α] [ShapedTableau τ] in
theorem Descending.mem_Icc {size row : Nat} {r : Run τ α} (h : Descending n m t size before r)
    (hrow : row ∈ constraintRows r.tableau) : row ∈ Finset.Icc 1 size := by
  have hlength := h.shaped.length
  have hbasis := h.basis
  rw [mem_constraintRows] at hrow
  rw [Finset.mem_Icc]
  omega

omit [Scalar α] in
theorem Descending.counted {size index : Nat} {r : Run τ α} (h : Descending n m t size before r)
    (hindex : index ∈ Finset.Icc 1 size) (hidle : (r.guard.record index).isTripped = false)
    (row column : Nat) : Descending n m t size before ({ r with
      guard := r.guard.record index
      iterations := r.iterations + 1 }.pivot .dual row column) :=
  ⟨shaped_counted h.shaped index .dual row column, (List.length_set ..).trans h.basis,
    paced_counted h.paced hindex hidle .dual row column⟩

theorem Descending.repairRows {size : Nat} (rows : List Nat)
    (hrows : ∀ row ∈ rows, row ∈ Finset.Icc 1 size) (r : Run τ α) (pivoted : Bool)
    (h : Descending n m t size before r) :
    Descends n m t size before r pivoted (Run.repairRows rows r pivoted) := by
  induction rows generalizing r pivoted with
  | nil =>
    exact ⟨h.shaped, h.iterations_le, fun hagain => ⟨h, Nat.le_refl _,
      fun hnot => absurd (hagain.symm.trans hnot) (by decide)⟩⟩
  | cons row rest ih =>
    have hrest : ∀ i ∈ rest, i ∈ Finset.Icc 1 size := fun i hi => hrows i (.tail _ hi)
    unfold Run.repairRows
    split
    next =>
      split
      next => exact ih hrest r pivoted h
      next column _ =>
        dsimp only
        split
        next =>
          exact ⟨h.shaped.stopped .noSolution State.noConfusion (r.guard.record row) rfl rfl,
            h.iterations_le, fun hagain => (by cases hagain)⟩
        next htrip =>
          have hrec := ih hrest _ true
            (h.counted (hrows row (.head _)) (Bool.not_eq_true _ ▸ htrip) row column)
          refine ⟨hrec.shaped, hrec.iterations, fun hagain => ?_⟩
          obtain ⟨hnext, hmore, -⟩ := hrec.again hagain
          exact ⟨hnext, (Nat.le_succ _).trans hmore, fun _ => hmore⟩
    next => exact ih hrest r pivoted h

theorem Descending.dualStep {size : Nat} {r : Run τ α} (h : Descending n m t size before r) :
    Descends n m t size before r false r.dualStep :=
  Descending.repairRows _ (fun _ hrow => h.mem_Icc hrow) r false h

omit [Scalar α] [ShapedTableau τ] in
theorem descending_reset {r : Run τ α} (h : Shaped n m t r.toBoard) :
    Descending n m t r.basis.length r.iterations { r with guard := r.guard.reset } := by
  have hblank := CyclingGuard.blank_reset (h.threshold ▸ h.threshold_pos)
  refine ⟨h.stopped r.state h.started r.guard.reset rfl rfl, rfl, ?_⟩
  refine ⟨hblank.isTripped, hblank.tallies _, ?_⟩
  show r.iterations = r.iterations + r.guard.reset.total _
  rw [hblank.total, Nat.add_zero]

theorem dual_ends {r : Run τ α} (h : Shaped n m t r.toBoard) (hstate : r.state = .solving) :
    Ends Run.dualStep { r with guard := r.guard.reset } r.dual ∧
      (rounds Run.dualStep (dualRounds { r.toBoard with guard := r.guard.reset })
        { r with guard := r.guard.reset }).2 = false := by
  have hdual : r.dual = (rounds Run.dualStep (dualRounds { r.toBoard with guard := r.guard.reset })
      { r with guard := r.guard.reset }).1 := if_pos hstate
  have hfuel : dualLeft n t r.basis.length r.iterations { r with guard := r.guard.reset } <
      dualRounds { r.toBoard with guard := r.guard.reset } := by
    have hlimit := CyclingGuard.limit_le n r.basis.length h.threshold_pos
    rw [← h.threshold] at hlimit ⊢
    show r.iterations + _ - r.iterations < r.basis.length * (10 * r.guard.threshold) + 1
    omega
  have hstep (s : Run τ α) (hs : Descending n m t r.basis.length r.iterations s)
      (hagain : s.dualStep.2 = true) :
      Descending n m t r.basis.length r.iterations s.dualStep.1 ∧
        s.dualStep.1.dualLeft n t r.basis.length r.iterations <
          s.dualLeft n t r.basis.length r.iterations := by
    obtain ⟨hnext, -, hmore⟩ := hs.dualStep.again hagain
    exact ⟨hnext, Nat.sub_lt_sub_left ((hmore rfl).trans_le hnext.iterations_le) (hmore rfl)⟩
  rw [hdual]
  exact rounds_ends hstep _ _ (descending_reset h) hfuel

theorem shaped_dual {r : Run τ α} (h : Shaped n m t r.toBoard) (hstate : r.state = .solving) :
    Shaped n m t r.dual.toBoard ∧
      r.dual.iterations ≤ r.iterations + CyclingGuard.limit n t m := by
  obtain ⟨last, hlast, heq⟩ := (dual_ends h hstate).1.last_step
    (fun s hs hagain => (hs.dualStep.again hagain).1) (descending_reset h)
  have hdescends := hlast.dualStep
  rw [heq] at hdescends
  refine ⟨hdescends.shaped, hdescends.iterations.trans ?_⟩
  exact Nat.add_le_add_left (CyclingGuard.limit_mono n t h.rows) _

/-! ## The answer -/

omit [ShapedTableau τ] in
theorem readRows_spec (places : Nat) (r : Run τ α) (h : r.state ≠ .zero) :
    (r.readRows places).1.state ≠ .zero ∧ (r.readRows places).1.iterations = r.iterations := by
  refine List.foldlRecOn (motive := fun s : Run τ α × List Float =>
    s.1.state ≠ .zero ∧ s.1.iterations = r.iterations) _ _ ⟨h, rfl⟩ ?_
  rintro ⟨s, x⟩ ⟨hstate, hiterations⟩ row -
  unfold readRow
  dsimp only
  split <;> split <;> first | exact ⟨hstate, hiterations⟩ | exact ⟨State.noConfusion, hiterations⟩

omit [Tableau τ α] [Scalar α] [ShapedTableau τ] in
theorem state_finish {r : Run τ α} (h : r.state ≠ .zero) :
    r.finish.state = .solved ∨ r.finish.state = .unbounded ∨ r.finish.state = .noSolution := by
  cases hstate : r.state <;> simp_all [finish, note]

omit [Tableau τ α] [Scalar α] [ShapedTableau τ] in
theorem iterations_finish (r : Run τ α) : r.finish.iterations = r.iterations := by
  unfold finish
  split <;> rfl

end Run

/-! ## Solving -/

/-- The dual phase of a run that is left undecided, and no such phase for others. -/
theorem Run.dual_cases {r : Run τ α} (h : Shaped n m t r.toBoard) :
    (r.state = .solving → Ends Run.dualStep { r with guard := r.guard.reset } r.dual) ∧
      (r.state ≠ .solving → r.dual = r) ∧ r.dual.state ≠ .zero ∧
      r.dual.iterations ≤ r.iterations + CyclingGuard.limit n t m := by
  by_cases hstate : r.state = .solving
  · obtain ⟨hdual, hle⟩ := Run.shaped_dual h hstate
    exact ⟨fun _ => (Run.dual_ends h hstate).1, absurd hstate, hdual.started, hle⟩
  · have hdual : r.dual = r := if_neg hstate
    rw [hdual]
    exact ⟨fun hsolving => absurd hsolving hstate, fun _ => rfl, h.started, Nat.le_add_right ..⟩

omit [ShapedTableau τ] in
theorem Simplex.run_solve_new (p : StandardForm α n) (rule : PivotRule) (threshold places : Nat) :
    (new p rule threshold places : Simplex τ α).solve.run =
      ((Run.begin (.ofStandardForm p rule threshold)).primal.dual.readRows places).1.finish := by
  unfold solve
  rw [if_pos (by rfl)]
  rfl

/-- Solving a program is to run two loops that end by themselves, the second one only if the first
one left the program undecided.  The iterations are bounded phase by phase: by the columns that may
reach the threshold and those that may not, and by the rows likewise. -/
theorem Simplex.solve_ends {τ α : Type} [Tableau τ α] [Scalar α] [ShapedTableau τ] {n : Nat}
    (p : StandardForm α n) (rule : PivotRule) (threshold places : Nat) :
    let m := p.equations.length
    let t := max 1 threshold
    let h := max 1 (n / 2)
    let k := min (h - 1) m
    let s : Simplex τ α := .new p rule threshold places
    ∃ first second : Run τ α,
      Ends Run.primalStep (Run.begin (.ofStandardForm p rule threshold)) first ∧
      (first.state = .solving →
        Ends Run.dualStep { first with guard := first.guard.reset } second) ∧
      (first.state ≠ .solving → second = first) ∧
      s.solve.run = (second.readRows places).1.finish ∧
      (s.solve.state = .solved ∨ s.solve.state = .unbounded ∨ s.solve.state = .noSolution) ∧
      first.iterations ≤ (h - 1) * (10 * t - 1) + (n + 1 - h) * (t - 1) ∧
      s.solve.iterations ≤ ((h - 1) * (10 * t - 1) + (n + 1 - h) * (t - 1)) +
        (k * (10 * t - 1) + (m - k) * (t - 1)) := by
  intro m t h k s
  have ht : 0 < t := Nat.le_max_left ..
  have hcolumns : CyclingGuard.limit n t n = (h - 1) * (10 * t - 1) + (n + 1 - h) * (t - 1) := by
    rw [CyclingGuard.limit_eq n n ht (k := h - 1) (by omega), show n - (h - 1) = n + 1 - h by omega]
  have hrows : CyclingGuard.limit n t m = k * (10 * t - 1) + (m - k) * (t - 1) :=
    CyclingGuard.limit_eq n m ht (by omega)
  have hclimbing := Run.climbing_begin (τ := τ) p rule threshold
  have hsolve := Simplex.run_solve_new (τ := τ) p rule threshold places
  obtain ⟨hends, -⟩ := hclimbing.ends
  obtain ⟨hfirst, hbound⟩ := hclimbing.primal
  generalize (Run.begin (τ := τ) (.ofStandardForm p rule threshold)).primal = first
    at hends hfirst hbound hsolve
  obtain ⟨hsecond, hskipped, hstarted, hmore⟩ := Run.dual_cases hfirst
  obtain ⟨hread, hiterations⟩ := Run.readRows_spec places first.dual hstarted
  refine ⟨first, first.dual, hends, hsecond, hskipped, hsolve, ?_, hcolumns ▸ hbound, ?_⟩
  · rw [Simplex.state, hsolve]
    exact Run.state_finish hread
  · rw [Simplex.iterations, hsolve, Run.iterations_finish, hiterations, ← hcolumns, ← hrows]
    exact hmore.trans (Nat.add_le_add_right hbound _)

/-- Beale's program, on which the largest coefficient rule cycles. -/
def cyclingProgram : StandardForm Float 7 where
  cost := #v[0.75, -20, 0.5, -6, 0, 0, 0]
  equations :=
    [⟨#v[0.25, -8, -1, 9, 1, 0, 0], 0⟩, ⟨#v[0.5, -12, -0.5, 3, 0, 1, 0], 0⟩,
      ⟨#v[0, 0, 1, 0, 0, 0, 1], 1⟩]

theorem cyclingProgram_ends :
    let s : Simplex (Columnar Float) Float := .new cyclingProgram .largestCoefficient 2 7
    (∃ first : Run (Columnar Float) Float,
      Ends Run.primalStep
          (Run.begin (.ofStandardForm cyclingProgram .largestCoefficient 2)) first ∧
        first.iterations ≤ 43) ∧
      s.solve.state = .noSolution ∧ s.solve.iterations = 8 := by
  obtain ⟨first, -, hends, -, -, -, -, hbound, -⟩ :=
    Simplex.solve_ends (τ := Columnar Float) cyclingProgram .largestCoefficient 2 7
  exact ⟨⟨first, hends, hbound⟩, by decide +kernel, by decide +kernel⟩

end LinProg
