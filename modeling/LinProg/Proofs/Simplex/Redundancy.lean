import LinProg.Proofs.Simplex.Answer
import LinProg.Proofs.Simplex.CanonicalRuns
import Mathlib.LinearAlgebra.Matrix.Rank

/-!
# Redundant rows

A row is removed when nothing is left of it, so that the other rows have the same solutions.  In a
solved program no artificial column is basic: every row has a variable that no other row has, hence
the rows are independent.  They have the solutions of the program, and therefore its rank, so that
exactly as many rows were removed as the rank leaves over (`removed_exactly_redundant`).
-/

namespace LinProg

open Tableau Board

variable {τ : Type} [Tableau τ Rat] {n : Nat} {p : StandardForm Rat n}

/-! ## The rank of a tableau -/

def StandardForm.matrix (p : StandardForm Rat n) : Matrix (Fin p.equations.length) (Fin n) Rat :=
  Matrix.of fun i j => p.equations[i].coefficients.get j

def Tableau.matrix (t : τ) (n : Nat) : Matrix (Fin (nrRows t - 1)) (Fin n) Rat :=
  Matrix.of fun i j => get t (i + 1) j

theorem StandardForm.mulVec_matrix (p : StandardForm Rat n) (z : Fin n → Rat) :
    (∀ i, p.matrix.mulVec z i = 0) ↔ ∀ e ∈ p.equations, dot e.coefficients z = 0 := by
  rw [List.forall_mem_iff_getElem, Fin.forall_iff]
  rfl

namespace Tableau

theorem mulVec_matrix (t : τ) (z : Fin n → Rat) :
    (∀ i, (matrix t n).mulVec z i = 0) ↔
      ∀ i ∈ constraintRows t, ∑ j : Fin n, get t i j * z j = 0 := by
  rw [Fin.forall_iff]
  constructor
  · intro hall i hi
    rw [mem_constraintRows] at hi
    obtain ⟨k, rfl⟩ : ∃ k, i = k + 1 := ⟨i - 1, by omega⟩
    exact hall k (by omega)
  · intro hall i hi
    exact hall (i + 1) (mem_constraintRows.2 ⟨Nat.succ_pos i, by omega⟩)

theorem excess_add (t : τ) (i : Nat) (x z : Fin n → Rat) :
    excess t n i (x + z) = excess t n i x + ∑ j : Fin n, get t i j * z j := by
  simp only [excess, Pi.add_apply, mul_add, Finset.sum_add_distrib]
  ring

/-- Around a solution the rows of a tableau and the equations allow the same directions. -/
theorem Represents.mulVec_eq_zero_iff {t : τ} (h : Represents p t) {x : Fin n → Rat}
    (hx : ∀ e ∈ p.equations, e.Holds x) (z : Fin n → Rat) :
    (∀ i, (matrix t n).mulVec z i = 0) ↔ ∀ i, p.matrix.mulVec z i = 0 := by
  have hholds (e : Equation Rat n) (he : e ∈ p.equations) :
      e.Holds (x + z) ↔ dot e.coefficients z = 0 := by
    have hsum : dot e.coefficients (x + z) = e.rhs + dot e.coefficients z := by
      rw [← hx e he]
      simp only [dot, Pi.add_apply, mul_add, Finset.sum_add_distrib]
    rw [Equation.Holds, hsum, add_eq_left]
  calc (∀ i, (matrix t n).mulVec z i = 0)
      ↔ ∀ i ∈ constraintRows t, ∑ j : Fin n, get t i j * z j = 0 := mulVec_matrix t z
    _ ↔ ∀ i ∈ constraintRows t, excess t n i (x + z) = 0 := forall₂_congr fun i hi => by
        rw [excess_add, h.excess_eq_zero hx hi, zero_add]
    _ ↔ ∀ e ∈ p.equations, e.Holds (x + z) := h.rows _
    _ ↔ ∀ e ∈ p.equations, dot e.coefficients z = 0 := forall₂_congr hholds
    _ ↔ ∀ i, p.matrix.mulVec z i = 0 := (p.mulVec_matrix z).symm

theorem Represents.rank_eq {t : τ} (h : Represents p t) {x : Fin n → Rat}
    (hx : ∀ e ∈ p.equations, e.Holds x) : (matrix t n).rank = p.matrix.rank := by
  have hker : LinearMap.ker (matrix t n).mulVecLin = LinearMap.ker p.matrix.mulVecLin := by
    ext z
    rw [LinearMap.mem_ker, LinearMap.mem_ker, funext_iff, funext_iff]
    exact h.mulVec_eq_zero_iff hx z
  have ht := (matrix t n).mulVecLin.finrank_range_add_finrank_ker
  have hp := p.matrix.mulVecLin.finrank_range_add_finrank_ker
  rw [hker] at ht
  exact Nat.add_right_cancel (ht.trans hp.symm)

end Tableau

/-- Rows with basic variables are independent. -/
theorem Board.Sound.linearIndependent {b : Board τ Rat} (h : Sound p b) (hfull : b.IsFull)
    (hart : ¬b.HasArtificial) : LinearIndependent Rat (matrix b.tableau n).row := by
  refine Fintype.linearIndependent_iff.2 fun g hg i => ?_
  have hrow : i.val + 1 ∈ constraintRows b.tableau :=
    mem_constraintRows.2 ⟨Nat.succ_pos _, by have := i.isLt; omega⟩
  obtain ⟨c, hcn, hc⟩ := (h.basic_cases hfull hrow).resolve_right fun ha => hart ⟨_, hrow, ha⟩
  have hunit := h.unit_of_lt hrow hc hcn
  -- the basic variable of the row has no other value
  have hvalue (k : Fin (nrRows b.tableau - 1)) :
      (matrix b.tableau n).row k ⟨c, hcn⟩ = if k = i then 1 else 0 := by
    have hk : k.val + 1 < nrRows b.tableau := by have := k.isLt; omega
    have hget := hunit (k.val + 1) hk
    simp only [Nat.add_right_cancel_iff, ← Fin.ext_iff] at hget
    exact hget
  have hsum := congrFun hg ⟨c, hcn⟩
  simpa only [Finset.sum_apply, Pi.smul_apply, smul_eq_mul, hvalue, mul_ite, mul_one, mul_zero,
    Finset.sum_ite_eq', Finset.mem_univ, if_true, Pi.zero_apply] using hsum

theorem Run.Answers.independent {places : Nat} {d r : Run τ Rat} (h : Answers places d r)
    (hd : d.Completed p) (hstate : r.state = .solved) (hround : r.RoundsFaithfully places) :
    ¬r.HasArtificial ∧ LinearIndependent Rat (matrix r.tableau n).row ∧
      (matrix r.tableau n).rank = p.matrix.rank := by
  obtain ⟨state, hboard⟩ := h.board
  obtain ⟨-, hall⟩ := h.of_solved hd hstate
  rw [hboard] at hround ⊢
  have hx := hd.basicPoint_feasible hround hall
  have hart : ¬d.HasArtificial := fun ha => hd.infeasible ha ⟨_, hx⟩
  exact ⟨hart, hd.sound.linearIndependent hd.full hart, hd.sound.represents.rank_eq hx.rows⟩

/-! ## Removals -/

def Event.isRemoval : Event → Bool
  | rowRemoved _ => true
  | _ => false

def Run.nrRemovals (r : Run τ Rat) : Nat := r.history.countP (·.event.isRemoval)

structure Board.IsZeroRow (n : Nat) (b : Board τ Rat) (row : Nat) : Prop where
  mem : row ∈ constraintRows b.tableau
  get_eq_zero : ∀ j ≤ n, get b.tableau row j = 0

/-- Each row of a program is still there or was removed, and it had no value when it was. -/
structure Run.Counted (p : StandardForm Rat n) (r : Run τ Rat) : Prop where
  nrVariables : r.nrVariables = n
  length : r.basis.length + 1 = nrRows r.tableau
  total : r.nrRemovals + r.basis.length = p.equations.length
  removed : ∀ e ∈ r.history, ∀ row, e.event = .rowRemoved row → e.board.IsZeroRow n row

theorem Run.Counted.nrRows_add_nrRemovals {r : Run τ Rat} (h : r.Counted p) :
    nrRows r.tableau + r.nrRemovals = p.equations.length + 1 := by
  rw [← h.length, ← h.total]
  omega

/-- As many rows were removed as the rank of the program leaves over. -/
theorem Run.Counted.nrRemovals_add_rank {r : Run τ Rat} (h : r.Counted p)
    (hind : LinearIndependent Rat (matrix r.tableau n).row)
    (hrank : (matrix r.tableau n).rank = p.matrix.rank) :
    r.nrRemovals + p.matrix.rank = p.equations.length := by
  have hlength := h.length
  rw [← hrank, hind.rank_matrix, Fintype.card_fin, ← h.total]
  omega

variable [LawfulTableau τ]

theorem Board.IsZeroRow.solutions {b : Board τ Rat} {row : Nat} (h : b.IsZeroRow n row)
    (z : Fin n → Rat) :
    (∀ i ∈ constraintRows (removeRow b.tableau row),
        excess (removeRow b.tableau row) n i z = 0) ↔
      ∀ i ∈ constraintRows b.tableau, excess b.tableau n i z = 0 :=
  forall_excess_removeRow h.mem (excess_of_zero h.get_eq_zero) z

/-- A move keeps the rows, or removes one that is redundant. -/
theorem Run.Move.rows {phase : Phase} {r s : Run τ Rat} (h : Move phase r s) :
    (s.basis.length = r.basis.length ∧ nrRows s.tableau = nrRows r.tableau ∧
      (s.history = r.history ∨ ∃ e, s.history = e :: r.history ∧ e.event.isRemoval = false)) ∨
    ∃ row ∈ constraintRows r.tableau, isRedundant r.toBoard row = true ∧
      s = { r.note (.rowRemoved row) with toBoard := r.removed row } := by
  cases h with
  | note event hevent =>
    refine .inl ⟨rfl, rfl, .inr ⟨_, rfl, ?_⟩⟩
    cases event <;> first | rfl | cases hevent
  | mark guard state iterations => exact .inl ⟨rfl, rfl, .inl rfl⟩
  | pivot hrow hc hpicks =>
    exact .inl ⟨List.length_set .., ShapedTableau.nrRows_pivot .., .inr ⟨_, rfl, rfl⟩⟩
  | fill hgaps =>
    have hwidens := widens_addArtificials r
    exact .inl ⟨hwidens.length, hwidens.nrRows, .inr ⟨_, history_addArtificials hgaps, rfl⟩⟩
  | remove hrow hredundant => exact .inr ⟨_, hrow, hredundant, rfl⟩
  | drop => exact .inl ⟨rfl, ShapedTableau.nrRows_truncateColumns .., .inr ⟨_, rfl, rfl⟩⟩

theorem Run.Counted.remove {r : Run τ Rat} (h : r.Counted p) {row : Nat}
    (hrow : row ∈ constraintRows r.tableau) (hredundant : isRedundant r.toBoard row = true) :
    Counted p ({ r.note (.rowRemoved row) with toBoard := r.removed row } : Run τ Rat) := by
  have hlength := h.length
  have htotal := h.total
  have hrow' := mem_constraintRows.1 hrow
  have hbasis : (r.removed row).basis.length = r.basis.length - 1 :=
    List.length_eraseIdx_of_lt (by omega)
  have hrows : nrRows (r.removed row).tableau = nrRows r.tableau - 1 :=
    ShapedTableau.nrRows_removeRow r.tableau row hrow'.2
  have hremovals : (r.note (.rowRemoved row)).nrRemovals = r.nrRemovals + 1 :=
    List.countP_cons_of_pos rfl
  refine ⟨h.nrVariables, ?_, ?_, List.forall_mem_cons.2 ⟨fun row' heq => ?_, h.removed⟩⟩
  · rw [hbasis, hrows]
    omega
  · change (r.note (.rowRemoved row)).nrRemovals + (r.removed row).basis.length = _
    omega
  · obtain rfl := Event.rowRemoved.inj heq
    exact ⟨hrow, h.nrVariables ▸ (isRedundant_iff.1 hredundant).2⟩

theorem Run.Counted.move {r s : Run τ Rat} (h : r.Counted p) {phase : Phase}
    (hmove : Move phase r s) : s.Counted p := by
  have hn : s.nrVariables = n := hmove.layout.1.trans h.nrVariables
  rcases hmove.rows with ⟨hbasis, hrows, heq | ⟨e, heq, hevent⟩⟩ | ⟨row, hrow, hredundant, rfl⟩
  · refine ⟨hn, by rw [hbasis, hrows, h.length], ?_, heq ▸ h.removed⟩
    rw [nrRemovals, heq, hbasis]
    exact h.total
  · refine ⟨hn, by rw [hbasis, hrows, h.length], ?_, ?_⟩
    · rw [nrRemovals, heq, List.countP_cons_of_neg (by simp [hevent]), hbasis]
      exact h.total
    · rw [heq, List.forall_mem_cons]
      refine ⟨fun row hrow => ?_, h.removed⟩
      rw [hrow] at hevent
      cases hevent
  · exact h.remove hrow hredundant

section Solve

variable (p) (rule : PivotRule) (threshold places : Nat)

theorem Run.counted_afterPreparation : (afterPreparation τ p rule threshold).Counted p := by
  let b : Board τ Rat := { Board.ofStandardForm p rule threshold with state := .solving }
  obtain ⟨hrows, -, hadds⟩ := adds_prepared p rule threshold (b := b) rfl rfl
  have hlength : (afterPreparation τ p rule threshold).basis.length = p.equations.length :=
    List.length_replicate
  refine ⟨rfl, hlength ▸ (hadds.nrRows.trans hrows).symm, ?_, fun e he row heq => ?_⟩
  · rw [hlength]
    exact Nat.zero_add _
  · rw [List.mem_singleton.1 he] at heq
    cases heq

theorem Simplex.counted_solve :
    (Simplex.new (τ := τ) p rule threshold places).solve.run.Counted p :=
  (moves_solve p rule threshold places).keeps (fun _ _ _ _ hmove h => h.move hmove)
    (Run.counted_afterPreparation p rule threshold)

theorem Simplex.independent_of_solved
    (h : (Simplex.new (τ := τ) p rule threshold places).solve.state = .solved)
    (hround : (Simplex.new (τ := τ) p rule threshold places).solve.run.RoundsFaithfully places) :
    let r := (Simplex.new (τ := τ) p rule threshold places).solve.run
    ¬r.HasArtificial ∧ LinearIndependent Rat (matrix r.tableau n).row ∧
      r.nrRemovals + p.matrix.rank = p.equations.length := by
  obtain ⟨hart, hind, hrank⟩ :=
    (answers p rule threshold places).independent (completed_of_solved h) h hround
  exact ⟨hart, hind, (counted_solve p rule threshold places).nrRemovals_add_rank hind hrank⟩

end Solve

/-- Only rows of zeros are ever removed, which changes no solution, and all others are kept.  Unless
rounding hides a right hand side, a solved program has no artificial basic column, its rows are
independent, and as many were removed as the rank leaves over. -/
theorem Simplex.removed_exactly_redundant (p : StandardForm Rat n) (rule : PivotRule)
    (threshold places : Nat) :
    let s := (Simplex.new (τ := Dense Rat) p rule threshold places).solve
    let r := s.run
    (∀ e ∈ r.history, ∀ row, e.event = .rowRemoved row →
      row ∈ constraintRows e.board.tableau ∧ (∀ j ≤ n, get e.board.tableau row j = 0) ∧
      ∀ z : Fin n → Rat,
        (∀ i ∈ constraintRows (removeRow e.board.tableau row),
            excess (removeRow e.board.tableau row) n i z = 0) ↔
          ∀ i ∈ constraintRows e.board.tableau, excess e.board.tableau n i z = 0) ∧
      nrRows r.tableau + r.nrRemovals = p.equations.length + 1 ∧
      (s.state = .solved → r.RoundsFaithfully places →
        ¬r.HasArtificial ∧ LinearIndependent Rat (matrix r.tableau n).row ∧
          r.nrRemovals + p.matrix.rank = p.equations.length) := by
  have hcounted := counted_solve (τ := Dense Rat) p rule threshold places
  refine ⟨fun e he row heq => ?_, hcounted.nrRows_add_nrRemovals,
    independent_of_solved p rule threshold places⟩
  have hzero := hcounted.removed e he row heq
  exact ⟨hzero.mem, hzero.get_eq_zero, hzero.solutions⟩

/-- One of two equal equations is removed. -/
theorem Simplex.redundantProgram_removal :
    let r := (Simplex.new (τ := Dense Rat) redundantProgram .firstProfitable 5 7).solve.run
    (∃ e ∈ r.history, e.event = .rowRemoved 2 ∧ ∀ j ≤ 2, get e.board.tableau 2 j = 0) ∧
      nrRows r.tableau = 2 ∧ ¬r.HasArtificial ∧
      LinearIndependent Rat (matrix r.tableau 2).row ∧ r.nrRemovals = 1 ∧
      redundantProgram.matrix.rank = 1 := by
  intro r
  obtain ⟨hremoved, hrows, hsolved⟩ :=
    removed_exactly_redundant redundantProgram .firstProfitable 5 7
  have hmem := r.history.get_mem ⟨2, by decide +kernel⟩
  have hzero := (hremoved _ hmem 2 (by decide +kernel)).2.1
  obtain ⟨hart, hind, htotal⟩ := hsolved (by decide +kernel) (by decide +kernel)
  have hone : r.nrRemovals = 1 := by decide +kernel
  rw [hone] at hrows htotal
  exact ⟨⟨_, hmem, by decide +kernel, hzero⟩, Nat.add_right_cancel hrows, hart, hind, hone,
    Nat.add_left_cancel htotal⟩

end LinProg
