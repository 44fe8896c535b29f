import LinProg.Proofs.Simplex.Certificates
import LinProg.Proofs.Simplex.Start
import LinProg.Simplex.Primal

/-!
# Artificial columns

`driveOut` either replaces artificial columns, or it only trims the board: rows of zeros and the
artificial columns go, and what is left reads as before.  An artificial column that is basic after
that holds a row without solution (`infeasible_of_artificial`), so that the program is infeasible.
-/

namespace LinProg

open Tableau Board

variable {τ : Type} [Tableau τ Rat] {n : Nat} {p : StandardForm Rat n}

/-- Every artificial column that is basic holds a row without candidate to replace it. -/
def Board.Stuck (b : Board τ Rat) : Prop :=
  ∀ row ∈ constraintRows b.tableau, b.isArtificial (b.basic row) = true →
    Run.exchangeColumn b row = none

/-- The second board has some rows of the first one and reads the same there. -/
structure Board.Trims (b b' : Board τ Rat) : Prop where
  nrVariables : b'.nrVariables = b.nrVariables
  firstArtificial : b'.firstArtificial = b.firstArtificial
  cost : ∀ j ≤ b.nrVariables, get b'.tableau 0 j = get b.tableau 0 j
  rows : ∀ i ∈ constraintRows b'.tableau, ∃ k ∈ constraintRows b.tableau,
    b'.basic i = b.basic k ∧ ∀ j ≤ b.nrVariables, get b'.tableau i j = get b.tableau k j

/-! ## Candidates -/

theorem Run.get_ne_zero_of_exchangeColumn {b : Board τ Rat} {row c : Nat}
    (h : Run.exchangeColumn b row = some c) : c < b.nrVariables ∧ get b.tableau row c ≠ 0 := by
  have hmem := List.mem_of_find?_eq_some h
  have hc := List.find?_some h
  simp only [isZero, Scalar.isZero_rat, Bool.and_eq_true, Bool.not_eq_true',
    decide_eq_false_iff_not] at hc
  exact ⟨List.mem_range.1 hmem, hc.1⟩

/-- A row without candidate has negative values only, and only under a positive right hand side. -/
theorem Run.exchangeColumn_eq_none {b : Board τ Rat} {row : Nat} :
    Run.exchangeColumn b row = none ↔ ∀ j < b.nrVariables,
      get b.tableau row j = 0 ∨ get b.tableau row j < 0 ∧ 0 < get b.tableau row b.rhs := by
  simp only [exchangeColumn, List.find?_eq_none, List.mem_range, isZero, isNegative, isPositive,
    Scalar.isZero_rat, Scalar.isNegative_rat, Scalar.isPositive_rat, Bool.and_eq_true,
    Bool.not_eq_true', decide_eq_false_iff_not, Bool.and_eq_false_iff, not_and, not_or, not_not]
  refine forall₂_congr fun j _ => ?_
  by_cases h0 : get b.tableau row j = 0 <;> simp [h0]

theorem Run.isRedundant_iff {b : Board τ Rat} {row : Nat} :
    Run.isRedundant b row = true ↔ b.isArtificial (b.basic row) = true ∧
      ∀ j ≤ b.nrVariables, get b.tableau row j = 0 := by
  simp only [isRedundant, anyNonzero, isZero, Scalar.isZero_rat, Bool.and_eq_true,
    Bool.not_eq_true', List.any_eq_false, List.mem_range, Nat.lt_succ_iff,
    decide_eq_false_iff_not, not_not]

/-- What an artificial column holds without candidate, and without being redundant, has no
solution. -/
theorem Board.infeasible_of_artificial {b : Board τ Rat} (h : Sound p b) {row : Nat}
    (hrow : row ∈ constraintRows b.tableau) (ha : b.isArtificial (b.basic row) = true)
    (hnone : Run.exchangeColumn b row = none) (hred : Run.isRedundant b row = false) :
    ¬∃ x, p.Feasible x := by
  rw [Run.exchangeColumn_eq_none, h.rhs, h.nrVariables] at hnone
  have hne : ∃ j ≤ n, get b.tableau row j ≠ 0 := by
    by_contra hall
    push Not at hall
    rw [Run.isRedundant_iff.2 ⟨ha, by rwa [h.nrVariables]⟩] at hred
    cases hred
  rcases lt_trichotomy (get b.tableau row n) 0 with hneg | hzero | hpos
  · refine infeasible_of_negative h hrow hneg fun j hj => ?_
    rcases hnone j hj with h0 | ⟨-, hpos⟩
    · exact h0.ge
    · exact absurd hneg hpos.not_gt
  · -- the value that is left is one of a variable, which needs a positive right hand side
    obtain ⟨j, hj, h0⟩ := hne
    have hjn : j < n := lt_of_le_of_ne hj fun e => h0 (e ▸ hzero)
    rcases hnone j hjn with h | ⟨-, hpos⟩
    · exact absurd h h0
    · exact absurd hzero hpos.ne'
  · refine infeasible_of_positive h hrow hpos fun j hj => ?_
    rcases hnone j hj with h0 | ⟨hneg, -⟩
    · exact h0.le
    · exact hneg.le

/-! ## Trimmed boards -/

theorem Board.Trims.refl (b : Board τ Rat) : Trims b b :=
  ⟨rfl, rfl, fun _ _ => rfl, fun i hi => ⟨i, hi, rfl, fun _ _ => rfl⟩⟩

theorem Board.Trims.trans {a b c : Board τ Rat} (h : Trims a b) (h' : Trims b c) : Trims a c := by
  refine ⟨h'.nrVariables.trans h.nrVariables, h'.firstArtificial.trans h.firstArtificial,
    fun j hj => (h'.cost j (h.nrVariables ▸ hj)).trans (h.cost j hj), fun i hi => ?_⟩
  obtain ⟨k, hk, hbasic, hget⟩ := h'.rows i hi
  obtain ⟨l, hl, hbasic', hget'⟩ := h.rows k hk
  exact ⟨l, hl, hbasic.trans hbasic', fun j hj =>
    (hget j (h.nrVariables ▸ hj)).trans (hget' j hj)⟩

theorem Board.Trims.isFull {b b' : Board τ Rat} (h : Trims b b') (hfull : b.IsFull) :
    b'.IsFull := by
  intro row hrow
  obtain ⟨k, hk, hbasic, -⟩ := h.rows row hrow
  exact hbasic ▸ hfull k hk

theorem Board.Trims.profitless {b b' : Board τ Rat} (h : Trims b b') (hp : b.Profitless) :
    b'.Profitless := by
  intro j hj
  rw [h.nrVariables] at hj
  exact (h.cost j hj.le).le.trans (hp j hj)

theorem Board.Trims.hasRay {b b' : Board τ Rat} (h : Trims b b') (hr : b.HasRay) : b'.HasRay := by
  obtain ⟨c, hc, hpos, hcolumn⟩ := hr
  refine ⟨c, h.nrVariables ▸ hc, (h.cost c hc.le).symm ▸ hpos, fun row hrow => ?_⟩
  obtain ⟨k, hk, -, hget⟩ := h.rows row hrow
  exact (hget c hc.le).le.trans (hcolumn k hk)

theorem Board.Trims.stuck {b b' : Board τ Rat} (h : Trims b b') (hs : b.Stuck) : b'.Stuck := by
  intro row hrow ha
  obtain ⟨k, hk, hbasic, hget⟩ := h.rows row hrow
  have hak : b.isArtificial (b.basic k) = true := by
    rw [isArtificial, hbasic, h.firstArtificial] at ha
    exact ha
  have hnone := Run.exchangeColumn_eq_none.1 (hs k hk hak)
  refine Run.exchangeColumn_eq_none.2 fun j hj => ?_
  rw [h.nrVariables] at hj
  rw [Board.rhs, h.nrVariables, hget j hj.le, hget _ le_rfl]
  exact hnone j hj

variable [LawfulTableau τ]

/-! ## Removing rows and columns -/

def Board.removed (b : Board τ Rat) (row : Nat) : Board τ Rat :=
  { b with tableau := removeRow b.tableau row, basis := b.basis.eraseIdx (row - 1) }

omit [LawfulTableau τ] in
theorem Board.basic_removed (b : Board τ Rat) {row i : Nat} (hrow : 0 < row) (hi : 0 < i) :
    (b.removed row).basic i = if i < row then b.basic i else b.basic (i + 1) := by
  simp only [basic, removed, List.getD_eq_getElem?_getD, List.getElem?_eraseIdx]
  by_cases h : i < row
  · rw [if_pos (by omega), if_pos h]
  · rw [if_neg (by omega), if_neg h, show i - 1 + 1 = i + 1 - 1 by omega]

/-- The row that stands in a row's place once another one is removed. -/
def Board.rowBefore (row i : Nat) : Nat := if i < row then i else i + 1

theorem Board.get_removed (b : Board τ Rat) (row i j : Nat) :
    get (b.removed row).tableau i j = get b.tableau (rowBefore row i) j := by
  have hget : get (removeRow b.tableau row) i j = _ := LawfulTableau.get_removeRow b.tableau row i j
  rw [removed, hget, rowBefore]
  split <;> rfl

theorem Board.rowBefore_mem (b : Board τ Rat) {row i : Nat} (hrow : row ∈ constraintRows b.tableau)
    (hi : i ∈ constraintRows (b.removed row).tableau) :
    rowBefore row i ∈ constraintRows b.tableau ∧
      (b.removed row).basic i = b.basic (rowBefore row i) := by
  rw [mem_constraintRows] at hrow
  have hn : nrRows (b.removed row).tableau = nrRows b.tableau - 1 :=
    ShapedTableau.nrRows_removeRow b.tableau row hrow.2
  rw [mem_constraintRows, hn] at hi
  rw [b.basic_removed hrow.1 hi.1, mem_constraintRows, rowBefore]
  split
  · exact ⟨by omega, rfl⟩
  · exact ⟨by omega, rfl⟩

theorem Board.trims_removed (b : Board τ Rat) {row : Nat} (hrow : row ∈ constraintRows b.tableau) :
    Trims b (b.removed row) := by
  refine ⟨rfl, rfl, fun j _ => ?_, fun i hi => ?_⟩
  · rw [get_removed, rowBefore, if_pos (mem_constraintRows.1 hrow).1]
  · obtain ⟨hk, hbasic⟩ := b.rowBefore_mem hrow hi
    exact ⟨_, hk, hbasic, fun j _ => b.get_removed row i j⟩

theorem Board.Sound.removed {b : Board τ Rat} (h : Sound p b) {row : Nat}
    (hrow : row ∈ constraintRows b.tableau) (hred : Run.isRedundant b row = true) :
    Sound p (b.removed row) := by
  have hzero := (Run.isRedundant_iff.1 hred).2
  rw [h.nrVariables] at hzero
  have hn : nrRows (b.removed row).tableau = nrRows b.tableau - 1 :=
    ShapedTableau.nrRows_removeRow b.tableau row (mem_constraintRows.1 hrow).2
  have hrow' := mem_constraintRows.1 hrow
  refine ⟨h.nrVariables, h.represents.removeRow hrow (excess_of_zero hzero), h.firstArtificial, ?_,
    fun i hi c hc hcn => ?_, fun i hi c hc => ?_⟩
  · have hlength := h.length
    show (b.basis.eraseIdx (row - 1)).length + 1 = _
    rw [List.length_eraseIdx_of_lt (h.index_lt hrow), hn]
    omega
  · obtain ⟨hk, hbasic⟩ := b.rowBefore_mem hrow hi
    have hcn : c < nrColumns b.tableau := by simpa [Board.removed] using hcn
    have hunit := h.unit _ hk c (hbasic ▸ hc) hcn
    intro l hl
    have hbefore : rowBefore row l = rowBefore row i ↔ l = i := by
      unfold rowBefore
      split <;> split <;> omega
    have hlt : rowBefore row l < nrRows b.tableau := by
      unfold rowBefore
      split <;> omega
    simp only [b.get_removed, hunit _ hlt, hbefore]
  · obtain ⟨hk, hbasic⟩ := b.rowBefore_mem hrow hi
    exact h.kind _ hk c (hbasic ▸ hc)

/-- Nothing that is ever read of a program is lost with the artificial columns. -/
theorem Board.Sound.truncated {b : Board τ Rat} (h : Sound p b) :
    Sound p { b with tableau := truncateColumns b.tableau b.firstArtificial } ∧
      Trims b { b with tableau := truncateColumns b.tableau b.firstArtificial } := by
  have hget (i j : Nat) (hj : j < b.firstArtificial) :
      get (truncateColumns b.tableau b.firstArtificial) i j = get b.tableau i j := by
    have : get (truncateColumns b.tableau b.firstArtificial) i j = _ :=
      LawfulTableau.get_truncateColumns b.tableau b.firstArtificial i j
    rw [this, if_pos hj]
  have hrows : nrRows (truncateColumns b.tableau b.firstArtificial) = nrRows b.tableau := by simp
  have hcols : nrColumns (truncateColumns b.tableau b.firstArtificial) =
      min b.firstArtificial (nrColumns b.tableau) := by simp
  have hconstraints := constraintRows_congr hrows
  have hfirst := h.firstArtificial
  have hwidth := h.represents.width
  refine ⟨⟨h.nrVariables, h.represents.congr hrows ?_ fun i j hj => hget i j (by omega), hfirst,
    h.length.trans hrows.symm, fun row hrow c hc hcn => ?_, fun row hrow c hc => ?_⟩,
    ⟨rfl, rfl, fun j hj => ?_, fun i hi => ?_⟩⟩
  · rw [hcols]
    omega
  · rw [hcols] at hcn
    exact (h.unit row (hconstraints ▸ hrow) c hc (by omega)).congr hrows fun i =>
      hget i c (by omega)
  · exact h.kind row (hconstraints ▸ hrow) c hc
  · exact hget 0 j (by rw [h.nrVariables] at hj; omega)
  · exact ⟨i, hconstraints ▸ hi, rfl, fun j hj => hget i j (by rw [h.nrVariables] at hj; omega)⟩

omit [LawfulTableau τ] in
theorem Board.isRedundant_removed [LawfulTableau τ] (b : Board τ Rat) {row i : Nat}
    (hrow : row ∈ constraintRows b.tableau) (hi : i ∈ constraintRows (b.removed row).tableau) :
    Run.isRedundant (b.removed row) i = Run.isRedundant b (rowBefore row i) := by
  obtain ⟨-, hbasic⟩ := b.rowBefore_mem hrow hi
  rw [Bool.eq_iff_iff, Run.isRedundant_iff, Run.isRedundant_iff, hbasic]
  simp only [b.get_removed]
  rfl

/-- Removing the redundant rows from a row on leaves none there. -/
theorem Run.removeRedundant_spec (count row : Nat) (r : Run τ Rat) (h : Sound p r.toBoard)
    (hrow : 0 < row) (hcount : row + count = nrRows r.tableau)
    (hbefore : ∀ i ∈ constraintRows r.tableau, i < row →
      Run.isRedundant r.toBoard i = false) :
    Sound p (removeRedundant count row r).toBoard ∧
      Trims r.toBoard (removeRedundant count row r).toBoard ∧
      (removeRedundant count row r).state = r.state ∧
      ∀ i ∈ constraintRows (removeRedundant count row r).tableau,
        Run.isRedundant (removeRedundant count row r).toBoard i = false := by
  induction count generalizing row r with
  | zero =>
    refine ⟨h, .refl _, rfl, fun i hi => hbefore i hi ?_⟩
    have : i < nrRows r.tableau := (mem_constraintRows.1 hi).2
    omega
  | succ count ih =>
    have hmem : row ∈ constraintRows r.tableau := by
      rw [mem_constraintRows]
      omega
    unfold removeRedundant
    split
    next hred =>
      have hn : nrRows (r.removed row).tableau = nrRows r.tableau - 1 :=
        ShapedTableau.nrRows_removeRow r.tableau row (mem_constraintRows.1 hmem).2
      obtain ⟨hs, htrims, hstate, hnone⟩ := ih row
        { r.note (.rowRemoved row) with toBoard := r.removed row } (h.removed hmem hred) hrow
        (by rw [hn]; omega) fun i hi hlt => by
          rw [isRedundant_removed _ hmem hi, rowBefore, if_pos hlt]
          have := r.rowBefore_mem hmem hi
          rw [rowBefore, if_pos hlt] at this
          exact hbefore i this.1 hlt
      exact ⟨hs, (r.trims_removed hmem).trans htrims, hstate, hnone⟩
    next hred =>
      refine ih (row + 1) r h (Nat.succ_pos row) (by omega) fun i hi hlt => ?_
      rcases Nat.lt_succ_iff_lt_or_eq.1 hlt with hlt | rfl
      · exact hbefore i hi hlt
      · simpa using hred

/-! ## Exchanges -/

structure Run.Exchanged (p : StandardForm Rat n) (r : Run τ Rat) (rows : List Nat)
    (out : Run τ Rat × Bool) : Prop where
  sound : Sound p out.1.toBoard
  full : out.1.IsFull
  nrRows : nrRows out.1.tableau = Tableau.nrRows r.tableau
  state : out.1.state = r.state
  stuck : out.2 = false → out.1 = r ∧ ∀ row ∈ rows, r.isArtificial (r.basic row) = true →
    Run.exchangeColumn r.toBoard row = none

theorem Run.Exchanged.exchange {r : Run τ Rat} {rows : List Nat} {out : Run τ Rat × Bool}
    (h : Run.Exchanged p r rows out) {row : Nat} (hrow : row ∈ constraintRows r.tableau) :
    Run.Exchanged p r (rows ++ [row]) (Run.exchange out row) := by
  obtain ⟨s, pivoted⟩ := out
  unfold Run.exchange
  dsimp only
  split
  next ha =>
    split
    next c hc =>
      have hmem : row ∈ constraintRows s.tableau := by
        rwa [constraintRows_congr h.nrRows]
      obtain ⟨hcn, h0⟩ := Run.get_ne_zero_of_exchangeColumn hc
      have hcn : c < n := by rwa [h.sound.nrVariables] at hcn
      refine ⟨h.sound.pivot hmem hcn h0, h.full.exchanged h.sound hmem (by simp), ?_, h.state,
        fun e => by cases e⟩
      simpa [Run.pivot] using h.nrRows
    next hnone =>
      refine ⟨h.sound, h.full, h.nrRows, h.state, fun e => ?_⟩
      obtain ⟨rfl, hall⟩ := h.stuck e
      refine ⟨rfl, fun i hi => ?_⟩
      rcases List.mem_append.1 hi with hi | hi
      · exact hall i hi
      · obtain rfl := List.mem_singleton.1 hi
        exact fun _ => hnone
  next hnot =>
    refine ⟨h.sound, h.full, h.nrRows, h.state, fun e => ?_⟩
    obtain ⟨rfl, hall⟩ := h.stuck e
    refine ⟨rfl, fun i hi => ?_⟩
    rcases List.mem_append.1 hi with hi | hi
    · exact hall i hi
    · obtain rfl := List.mem_singleton.1 hi
      exact fun ha => absurd ha hnot

theorem Run.exchanged_foldl {r : Run τ Rat} (h : Sound p r.toBoard) (hfull : r.IsFull)
    (rows : List Nat) (hrows : ∀ row ∈ rows, row ∈ constraintRows r.tableau) :
    Run.Exchanged p r rows (rows.foldl Run.exchange (r, false)) := by
  induction rows using List.reverseRecOn with
  | nil => exact ⟨h, hfull, rfl, rfl, fun _ => ⟨rfl, by simp⟩⟩
  | append_singleton rows row ih =>
    rw [List.foldl_append]
    exact (ih fun i hi => hrows i (List.mem_append_left _ hi)).exchange
      (hrows row (List.mem_append_right _ (List.mem_singleton_self row)))

/-! ## Driving artificial columns out -/

structure Run.DrivenOut (p : StandardForm Rat n) (r : Run τ Rat) (out : Run τ Rat × Bool) :
    Prop where
  sound : Sound p out.1.toBoard
  full : out.1.IsFull
  state : out.1.state = r.state
  trims : out.2 = false → Trims r.toBoard out.1.toBoard
  infeasible : out.2 = false → out.1.HasArtificial → ¬∃ x, p.Feasible x

theorem Run.drivenOut {r : Run τ Rat} (h : Sound p r.toBoard) (hfull : r.IsFull) :
    Run.DrivenOut p r r.driveOut := by
  have hex := Run.exchanged_foldl h hfull (constraintRows r.tableau) fun _ hrow => hrow
  unfold Run.driveOut
  generalize (constraintRows r.tableau).foldl Run.exchange (r, false) = out at hex ⊢
  obtain ⟨s, pivoted⟩ := out
  cases pivoted with
  | true =>
    have htrunc := hex.sound.truncated
    exact ⟨htrunc.1, htrunc.2.isFull hex.full, hex.state, fun e => (by cases e),
      fun e => (by cases e)⟩
  | false =>
    obtain ⟨rfl, hstuck⟩ := hex.stuck rfl
    obtain ⟨hs, htrims, hstate, hnone⟩ := Run.removeRedundant_spec
      (nrRows s.tableau - 1) 1 s h Nat.one_pos (Nat.add_sub_cancel' h.represents.costRow)
      fun i hi hlt => by
        have := (mem_constraintRows.1 hi).1
        omega
    have hstuck := htrims.stuck hstuck
    obtain ⟨hs', htrims'⟩ := hs.truncated
    refine ⟨hs', (htrims.trans htrims').isFull hfull, hstate, fun _ => htrims.trans htrims', ?_⟩
    rintro - ⟨row, hrow, ha⟩
    have hrow : row ∈ constraintRows (Run.removeRedundant (nrRows s.tableau - 1) 1 s).tableau := by
      rwa [← constraintRows_congr (ShapedTableau.nrRows_truncateColumns _ _)]
    exact infeasible_of_artificial hs hrow ha (hstuck row hrow ha) (hnone row hrow)

end LinProg
