import LinProg.Proofs.Number.Sign
import LinProg.Proofs.Simplex.Dual

/-!
# What the simplex method answers

The two phases leave a board about which everything is known (`Run.Completed`), unless the guard
tripped.  Reading the answer only changes the state: a row whose value contradicts its basic column
takes every claim to a solution away.
-/

namespace LinProg

open Tableau Board

variable {τ : Type} [Tableau τ Rat] {n : Nat} {p : StandardForm Rat n}

/-! ## Both phases -/

/-- What the two phases leave if the guard doesn't trip. -/
structure Run.Completed (p : StandardForm Rat n) (r : Run τ Rat) : Prop where
  sound : Sound p r.toBoard
  full : r.IsFull
  infeasible : r.HasArtificial → ¬∃ x, p.Feasible x
  progress : r.state = .solving ∧ r.Profitless ∧ r.Repaired ∨
    r.state = .unbounded ∧ (r.Profitless ∨ r.HasRay)

/-- The dual phase leaves alone what the primal phase found unbounded. -/
theorem Run.dual_of_ne_solving {r : Run τ Rat} (h : r.state ≠ .solving) : r.dual = r := if_neg h

theorem Run.Settled.completed [LawfulTableau τ] {m t : Nat} {r : Run τ Rat} (h : r.Settled p)
    (hshaped : Shaped n m t r.toBoard) :
    r.dual.Completed p ∨ r.dual.state = .noSolution ∧ r.dual.Tripped := by
  rcases h.progress with ⟨hstate, hprofitless⟩ | ⟨hstate, hprogress⟩
  · refine (dual_spec h.sound h.full hshaped hstate).imp_left fun ⟨hd, hrepaired⟩ => ?_
    exact ⟨hd.sound, hd.full, fun ha => h.infeasible (hd.hasArtificial ha),
      .inl ⟨hd.state, hd.profitless hprofitless, hrepaired⟩⟩
  · rw [dual_of_ne_solving (by rw [hstate]; decide)]
    exact .inl ⟨h.sound, h.full, h.infeasible, .inr ⟨hstate, hprogress⟩⟩

def Run.afterPrimal (τ : Type) [Tableau τ Rat] (p : StandardForm Rat n) (rule : PivotRule)
    (threshold : Nat) : Run τ Rat :=
  (Run.begin (Board.ofStandardForm p rule threshold)).primal

theorem Run.shaped_afterPrimal [LawfulTableau τ] (p : StandardForm Rat n) (rule : PivotRule)
    (threshold : Nat) :
    Shaped n p.equations.length (max 1 threshold) (afterPrimal τ p rule threshold).toBoard :=
  (climbing_begin p rule threshold).primal.1

theorem Run.afterPrimal_spec [LawfulTableau τ] (p : StandardForm Rat n) (rule : PivotRule)
    (threshold : Nat) :
    (afterPrimal τ p rule threshold).Settled p ∨
      (afterPrimal τ p rule threshold).state = .noSolution ∧
        (afterPrimal τ p rule threshold).Tripped := by
  obtain ⟨hgrowing, hfull, hstate⟩ := Run.begin_spec (τ := τ) p rule threshold
  exact (Run.Raising.mk hgrowing.sound hfull (.inl hstate)).primal (climbing_begin p rule threshold)

/-- Both phases complete the run of a program unless the guard trips. -/
theorem Run.phases_spec [LawfulTableau τ] (p : StandardForm Rat n) (rule : PivotRule)
    (threshold : Nat) :
    (afterPrimal τ p rule threshold).Settled p ∧ (afterPrimal τ p rule threshold).dual.Completed p ∨
      (afterPrimal τ p rule threshold).dual.state = .noSolution ∧
        (afterPrimal τ p rule threshold).dual.Tripped := by
  rcases Run.afterPrimal_spec (τ := τ) p rule threshold with hsettled | ⟨hstate, hevent⟩
  · exact (hsettled.completed (shaped_afterPrimal p rule threshold)).imp_left fun hdone =>
      ⟨hsettled, hdone⟩
  · refine .inr ?_
    rw [dual_of_ne_solving (by rw [hstate]; decide)]
    exact ⟨hstate, hevent⟩

/-! ## Reading the answer -/

def Run.Contradicts (places : Nat) (r : Run τ Rat) (row : Nat) : Prop :=
  isInfeasible r.toBoard (r.basic row) (rounded places (get r.tableau row r.rhs)) = true

instance (places : Nat) (r : Run τ Rat) (row : Nat) : Decidable (r.Contradicts places row) :=
  inferInstanceAs (Decidable (_ = true))

theorem Run.readRow_fst (places : Nat) (s : Run τ Rat × List Float) (row : Nat) :
    (readRow places s row).1 =
      if s.1.Contradicts places row then
        { s.1.note (.rowInfeasible row (rounded places (get s.1.tableau row s.1.rhs))
            (s.1.basic row)) with state := .noSolution }
      else s.1 := by
  obtain ⟨r, x⟩ := s
  unfold readRow
  dsimp only
  split <;> rfl

/-- What was read so far of some rows. -/
structure Run.HaveRead (places : Nat) (r : Run τ Rat) (rows : List Nat) (r' : Run τ Rat) :
    Prop where
  board : ∃ state, r'.toBoard = { r.toBoard with state := state }
  state : (∃ row ∈ rows, r.Contradicts places row) ∧ r'.state = .noSolution ∨
    (∀ row ∈ rows, ¬r.Contradicts places row) ∧ r'.state = r.state
  history : ∃ later, r'.history = later ++ r.history

theorem Run.HaveRead.readRow {places : Nat} {r : Run τ Rat} {rows : List Nat}
    {s : Run τ Rat × List Float} (h : HaveRead places r rows s.1) (row : Nat) :
    HaveRead places r (rows ++ [row]) (Run.readRow places s row).1 := by
  obtain ⟨state, hboard⟩ := h.board
  obtain ⟨later, hhistory⟩ := h.history
  have hcontradicts : s.1.Contradicts places row ↔ r.Contradicts places row := by
    unfold Contradicts
    rw [hboard]
    rfl
  rw [readRow_fst]
  split
  next hrow =>
    refine ⟨⟨.noSolution, ?_⟩, .inl ⟨⟨row, by simp, hcontradicts.1 hrow⟩, rfl⟩,
      ⟨_ :: later, congrArg (_ :: ·) hhistory⟩⟩
    show ({ s.1.toBoard with state := .noSolution } : Board τ Rat) = _
    rw [hboard]
  next hrow =>
    refine ⟨⟨state, hboard⟩, ?_, ⟨later, hhistory⟩⟩
    rcases h.state with ⟨⟨i, hi, hir⟩, hs⟩ | ⟨hall, hs⟩
    · exact .inl ⟨⟨i, List.mem_append_left _ hi, hir⟩, hs⟩
    · refine .inr ⟨fun i hi => ?_, hs⟩
      rcases List.mem_append.1 hi with hi | hi
      · exact hall i hi
      · exact List.mem_singleton.1 hi ▸ mt hcontradicts.2 hrow

theorem Run.haveRead_readRows (places : Nat) (r : Run τ Rat) :
    HaveRead places r (constraintRows r.tableau) (r.readRows places).1 := by
  unfold readRows
  induction constraintRows r.tableau using List.reverseRecOn with
  | nil => exact ⟨⟨r.state, rfl⟩, .inr ⟨by simp, rfl⟩, ⟨[], rfl⟩⟩
  | append_singleton rows row ih =>
    rw [List.foldl_append, List.foldl_cons, List.foldl_nil]
    exact ih.readRow row

/-! ## The answer -/

theorem Run.phases_start (p : StandardForm Rat n) (rule : PivotRule) (threshold : Nat) :
    (Run.start (Board.ofStandardForm p rule threshold)).phases =
      (afterPrimal τ p rule threshold).dual := rfl

/-- The run that is left when a program was solved. -/
theorem Simplex.solve_run (p : StandardForm Rat n) (rule : PivotRule) (threshold places : Nat) :
    (Simplex.new (τ := τ) p rule threshold places).solve.run =
      ((Run.afterPrimal τ p rule threshold).dual.readRows places).1.finish := by
  rw [← Run.phases_start]
  unfold Simplex.solve
  rw [if_pos (by rfl)]
  rfl

theorem Simplex.solve_report (p : StandardForm Rat n) (rule : PivotRule) (threshold places : Nat) :
    let s := (Simplex.new (τ := τ) p rule threshold places).solve
    s.report.max = Run.rounded places (-get s.run.tableau 0 s.run.rhs) ∧
      s.report.reducedCost = (List.range s.run.nrVariables).map (fun column =>
        Run.rounded places (-get s.run.tableau 0 column)) ∧
      s.report.shadowPrice = s.run.dualColumns.map fun found =>
        Run.rounded places (Run.dualValue s.run.toBoard found) := by
  unfold Simplex.solve
  rw [if_pos (by rfl)]
  exact ⟨rfl, rfl, rfl⟩

/-- Rounding turns no right hand side other than zero into zero. -/
def Board.RoundsFaithfully (places : Nat) (b : Board τ Rat) : Prop :=
  ∀ row ∈ constraintRows b.tableau, (Run.rounded places (get b.tableau row b.rhs) == 0) = true →
    get b.tableau row b.rhs = 0

instance (places : Nat) (b : Board τ Rat) : Decidable (b.RoundsFaithfully places) :=
  inferInstanceAs (Decidable (∀ row ∈ _, _ → _))

/-- How the answered run `r` follows from the completed run `d`. -/
structure Run.Answers (places : Nat) (d r : Run τ Rat) : Prop where
  board : ∃ state, r.toBoard = { d.toBoard with state := state }
  state : (∃ row ∈ constraintRows d.tableau, d.Contradicts places row) ∧ r.state = .noSolution ∨
    (∀ row ∈ constraintRows d.tableau, ¬d.Contradicts places row) ∧
      r.state = if d.state = .solving then .solved else d.state
  history : ∃ later, r.history = later ++ d.history

theorem Run.answers_finish (places : Nat) (d : Run τ Rat) :
    Answers places d (d.readRows places).1.finish := by
  have hread := haveRead_readRows places d
  obtain ⟨state, hboard⟩ := hread.board
  obtain ⟨later, hhistory⟩ := hread.history
  generalize (d.readRows places).1 = s at *
  unfold finish
  dsimp only
  split
  next hsolving =>
    refine ⟨⟨.solved, ?_⟩, ?_, ⟨_ :: later, congrArg (_ :: ·) hhistory⟩⟩
    · show ({ s.toBoard with state := .solved } : Board τ Rat) = _
      rw [hboard]
    · rcases hread.state with ⟨-, hno⟩ | ⟨hall, hsame⟩
      · rw [hno] at hsolving
        cases hsolving
      · exact .inr ⟨hall, by rw [if_pos (hsame.symm.trans hsolving)]; rfl⟩
  next hsolving =>
    refine ⟨⟨state, hboard⟩, ?_, ⟨_ :: later, congrArg (_ :: ·) hhistory⟩⟩
    rcases hread.state with hno | ⟨hall, hsame⟩
    · exact .inl hno
    · exact .inr ⟨hall, by rw [if_neg (hsame ▸ hsolving)]; exact hsame⟩

theorem Run.Tripped.answered {places : Nat} {d r : Run τ Rat} (h : d.Tripped)
    (ha : Answers places d r) : r.Tripped := by
  obtain ⟨e, he, htrip⟩ := h
  obtain ⟨later, hlater⟩ := ha.history
  exact ⟨e, hlater ▸ List.mem_append_right _ he, htrip⟩

theorem Run.rounded_of_neg (places : Nat) {q : Rat} (hq : q < 0) :
    (Run.rounded places q < 0 ∨ (Run.rounded places q == 0) = true) ∧
      ¬0 < Run.rounded places q := by
  have h := Exact.hasSign_toFloat q
  rw [if_pos hq] at h
  rcases h.roundToPlaces places with heq | hsign
  · change Run.rounded places q = 0 at heq
    rw [heq]
    exact ⟨.inr Binary64.zero_beq_zero, Binary64.not_zero_lt_zero⟩
  · exact hsign.negative

theorem Run.rounded_of_nonneg (places : Nat) {q : Rat} (hq : 0 ≤ q) :
    (0 < Run.rounded places q ∨ (Run.rounded places q == 0) = true) ∧
      ¬Run.rounded places q < 0 := by
  have h := Exact.hasSign_toFloat q
  rw [if_neg (not_lt.2 hq)] at h
  rcases h.roundToPlaces places with heq | hsign
  · change Run.rounded places q = 0 at heq
    rw [heq]
    exact ⟨.inr Binary64.zero_beq_zero, Binary64.not_zero_lt_zero⟩
  · exact hsign.positive

/-- A row that contradicts its basic column has a negative right hand side, or an artificial
column. -/
theorem Run.Completed.of_contradicts {places : Nat} {d : Run τ Rat} (h : d.Completed p) {row : Nat}
    (hrow : row ∈ constraintRows d.tableau) (hc : d.Contradicts places row) :
    get d.tableau row n < 0 ∨ d.isArtificial (d.basic row) = true := by
  obtain ⟨c, hbasic⟩ := h.full row hrow
  unfold Contradicts isInfeasible at hc
  rw [hbasic, Bool.or_eq_true, decide_eq_true_eq, Bool.and_eq_true, decide_eq_true_eq] at hc
  rcases hc with hneg | ⟨hart, -⟩
  · refine .inl (not_le.1 fun hnonneg => ?_)
    rw [h.sound.rhs] at hneg
    exact (rounded_of_nonneg places hnonneg).2 hneg
  · exact .inr (isArtificial_iff.2 ⟨c, hbasic, hart⟩)

/-- A row that doesn't contradict its basic column is solved by the basic point. -/
theorem Run.Completed.of_not_contradicts {places : Nat} {d : Run τ Rat} (h : d.Completed p)
    (hround : d.RoundsFaithfully places) {row : Nat} (hrow : row ∈ constraintRows d.tableau)
    (hc : ¬d.Contradicts places row) :
    0 ≤ get d.tableau row n ∧
      (d.isArtificial (d.basic row) = true → get d.tableau row n = 0) := by
  obtain ⟨c, hbasic⟩ := h.full row hrow
  have hzero := hround row hrow
  unfold Contradicts isInfeasible at hc
  rw [hbasic, Bool.or_eq_true, decide_eq_true_eq, Bool.and_eq_true, decide_eq_true_eq,
    decide_eq_true_eq, not_or] at hc
  rw [h.sound.rhs] at hc hzero
  have hnonneg : 0 ≤ get d.tableau row n := by
    by_contra hneg
    rcases (rounded_of_neg places (not_le.1 hneg)).1 with hlt | heq
    · exact hc.1 hlt
    · exact hneg (hzero heq).ge
  refine ⟨hnonneg, fun ha => ?_⟩
  rcases (rounded_of_nonneg places hnonneg).1 with hpos | heq
  · rw [hbasic] at ha
    obtain ⟨c', hc', hart⟩ := isArtificial_iff.1 ha
    obtain rfl := Option.some.inj hc'
    exact absurd ⟨hart, hpos⟩ hc.2
  · exact hzero heq

theorem Run.Completed.basicPoint_feasible {places : Nat} {d : Run τ Rat} (h : d.Completed p)
    (hround : d.RoundsFaithfully places)
    (hall : ∀ row ∈ constraintRows d.tableau, ¬d.Contradicts places row) :
    p.Feasible fun j => d.basicPoint j :=
  h.sound.basicPoint_feasible h.full
    (fun row hrow => (h.of_not_contradicts hround hrow (hall row hrow)).1)
    fun row hrow => (h.of_not_contradicts hround hrow (hall row hrow)).2

end LinProg
