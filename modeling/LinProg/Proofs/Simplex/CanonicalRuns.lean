import LinProg.Proofs.Simplex.DualColumns
import LinProg.Proofs.Simplex.Moves
import LinProg.Proofs.Tableau.Dense

/-!
# Runs stay canonical

From the initial basis on every row has a basic column of its own, and no moment of a run breaks
what a sound board has (`canonical_from_basis`).  A pivot is made on a nonzero value, so that its
column is basic in no other row; a removal takes a row and its basic column at once.  An artificial
column can be dropped while it is basic: its number stays in the basis, and stays no other row's.
-/

namespace LinProg

open Tableau Board

variable {τ : Type} [Tableau τ Rat] {n : Nat} {p : StandardForm Rat n}

/-- A sound board whose rows have basic columns of their own.  Columns that track dual values are
variables, or stand between the right hand side and the artificial columns, where none is basic. -/
structure Board.Canonical (p : StandardForm Rat n) (b : Board τ Rat) : Prop extends Sound p b where
  full : b.IsFull
  distinct : ∀ i ∈ constraintRows b.tableau, ∀ k ∈ constraintRows b.tableau,
    b.basic i = b.basic k → i = k
  tracking : ∀ k a, some (k, a) ∈ b.dualColumns → k < n ∨ n < k ∧ k < b.firstArtificial

/-! ## One move -/

theorem Board.Sound.eq_of_basic {b : Board τ Rat} (h : Sound p b) {i k c : Nat}
    (hi : i ∈ constraintRows b.tableau) (hk : k ∈ constraintRows b.tableau)
    (hic : b.basic i = some c) (hkc : b.basic k = some c) (hc : c < nrColumns b.tableau) : i = k :=
  (h.unit i hi c hic hc).unique (h.unit k hk c hkc hc) (mem_constraintRows.1 hi).2

namespace Board.Canonical

theorem agrees {b b' : Board τ Rat} (h : Canonical p b) (hagrees : Agrees b b') :
    Canonical p b' := by
  obtain ⟨guard, state, iterations, rfl⟩ := hagrees
  exact ⟨h.toSound.of_eq rfl rfl rfl rfl, h.full, h.distinct, h.tracking⟩

variable [LawfulTableau τ] {b : Board τ Rat}

theorem pivot (h : Canonical p b) {row c : Nat} (hrow : row ∈ constraintRows b.tableau)
    (hc : c < n) (h0 : get b.tableau row c ≠ 0) :
    Canonical p (b.exchanged (Tableau.pivot b.tableau row c) row c) := by
  have hs := h.toSound.pivot hrow hc h0
  have hrows : constraintRows (Tableau.pivot b.tableau row c) = constraintRows b.tableau :=
    constraintRows_congr (by simp)
  have hbasic {i : Nat} (hi : i ∈ constraintRows (Tableau.pivot b.tableau row c)) :
      (b.exchanged (Tableau.pivot b.tableau row c) row c).basic i =
        if i = row then some c else b.basic i :=
    h.basic_exchanged _ c hrow (hrows ▸ hi)
  refine ⟨hs, h.full.exchanged h.toSound hrow (by simp), fun i hi k hk heq => ?_, h.tracking⟩
  by_cases hnew : (b.exchanged (Tableau.pivot b.tableau row c) row c).basic i = some c
  · exact hs.eq_of_basic hi hk hnew (heq ▸ hnew) (hc.trans hs.represents.width)
  · have hnew' := heq ▸ hnew
    rw [hbasic hi] at heq hnew
    rw [hbasic hk] at heq hnew'
    have hir : i ≠ row := fun hir => hnew (if_pos hir)
    have hkr : k ≠ row := fun hkr => hnew' (if_pos hkr)
    rw [if_neg hir, if_neg hkr] at heq
    exact h.distinct i (hrows ▸ hi) k (hrows ▸ hk) heq

theorem removed (h : Canonical p b) {row : Nat} (hrow : row ∈ constraintRows b.tableau)
    (hredundant : Run.isRedundant b row = true) : Canonical p (b.removed row) := by
  refine ⟨h.toSound.removed hrow hredundant, (b.trims_removed hrow).isFull h.full,
    fun i hi k hk heq => ?_, h.tracking⟩
  obtain ⟨hi', hib⟩ := b.rowBefore_mem hrow hi
  obtain ⟨hk', hkb⟩ := b.rowBefore_mem hrow hk
  have hbefore := h.distinct _ hi' _ hk' (hib.symm.trans (heq.trans hkb))
  unfold rowBefore at hbefore
  split at hbefore <;> split at hbefore <;> omega

theorem truncated (h : Canonical p b) :
    Canonical p { b with tableau := truncateColumns b.tableau b.firstArtificial } := by
  obtain ⟨hs, htrims⟩ := h.toSound.truncated
  have hrows : constraintRows (truncateColumns b.tableau b.firstArtificial) =
      constraintRows b.tableau :=
    constraintRows_congr (by simp)
  exact ⟨hs, htrims.isFull h.full, fun i hi k hk => h.distinct i (hrows ▸ hi) k (hrows ▸ hk),
    h.tracking⟩

/-- Every move keeps a canonical board, but for those that choose the initial basis. -/
theorem move {r s : Run τ Rat} (h : Canonical p r.toBoard) {phase : Phase}
    (hmove : Run.Move phase r s) (hphase : phase ≠ .start) : Canonical p s.toBoard := by
  cases hmove with
  | note event hevent => exact h
  | mark guard state iterations => exact h.agrees ⟨guard, state, iterations, rfl⟩
  | pivot hrow hc hpicks => exact h.pivot hrow (h.nrVariables ▸ hc) hpicks.get_ne_zero
  | fill hgaps => exact absurd rfl hphase
  | remove hrow hredundant => exact h.removed hrow hredundant
  | drop => exact h.truncated

end Board.Canonical

/-! ## The initial basis -/

section Begin

variable [LawfulTableau τ] (p) (rule : PivotRule) (threshold : Nat)

theorem Run.tracking_afterPreparation {k : Nat} {a : Rat}
    (h : some (k, a) ∈ (afterPreparation τ p rule threshold).dualColumns) :
    k < n ∨ n < k ∧ k < (afterPreparation τ p rule threshold).firstArtificial := by
  let b : Board τ Rat := { Board.ofStandardForm p rule threshold with state := .solving }
  have hslack := (Board.slackColumns_spec p).2
  obtain ⟨-, hcolumns, hadds⟩ := adds_prepared p rule threshold (b := b) rfl rfl
  change Adds (sign b) 1 (nonnegative b) (Board.slackColumns p)
    (addDualColumns (sign b) 1 (nonnegative b) (Board.slackColumns p)) at hadds
  obtain ⟨i, hi⟩ := List.mem_iff_getElem?.1 h
  change (addDualColumns (sign b) 1 (nonnegative b) (Board.slackColumns p)).2[i]? = _ at hi
  cases hfound : (Board.slackColumns p)[i]? with
  | none =>
    have hlt := (List.getElem?_eq_some_iff.1 hi).1
    rw [List.getElem?_eq_none_iff, ← hadds.length] at hfound
    exact absurd hlt (Nat.not_lt.2 hfound)
  | some found =>
    cases found with
    | some found =>
      rw [hadds.kept i found hfound, Option.some.injEq, Option.some.injEq] at hi
      exact .inl (hslack i k a (hi ▸ hfound)).1
    | none =>
      obtain ⟨k', hk', hle, hlt, -⟩ := hadds.added i hfound
      rw [hk', Option.some.injEq, Option.some.injEq, Prod.mk.injEq] at hi
      obtain ⟨rfl, -⟩ := hi
      exact .inr ⟨by omega, hlt⟩

theorem Run.canonical_begin :
    Canonical p (begin (Board.ofStandardForm (τ := τ) p rule threshold)).toBoard := by
  obtain ⟨hgrowing, hfull, -⟩ := begin_spec (τ := τ) p rule threshold
  refine ⟨hgrowing.sound, hfull, fun i hi k hk heq => ?_, ?_⟩
  · obtain ⟨c, hc⟩ := hfull i hi
    exact hgrowing.sound.eq_of_basic hi hk hc (heq ▸ hc) (hgrowing.readable i hi c hc)
  · refine (moves_begin p rule threshold).keeps (I := fun r : Run τ Rat =>
      ∀ k a, some (k, a) ∈ r.dualColumns → k < n ∨ n < k ∧ k < r.firstArtificial)
      (fun phase _ r s hmove hr => ?_) fun k a h => tracking_afterPreparation p rule threshold h
    obtain ⟨-, hfirst, hcolumns⟩ := hmove.layout
    rw [hfirst, hcolumns]
    exact hr

/-- All moments from the initial basis on are canonical, and so is the end. -/
theorem Simplex.canonical_moments (places : Nat) :
    let b : Run τ Rat := Run.begin (.ofStandardForm p rule threshold)
    let r := (Simplex.new (τ := τ) p rule threshold places).solve.run
    Canonical p r.toBoard ∧ ∀ e earlier, e :: earlier <:+ r.history →
      b.history <:+ e :: earlier → Canonical p e.after := by
  have hbegin := Run.canonical_begin (τ := τ) p rule threshold
  have hmoves := moves_begin (τ := τ) p rule threshold places
  have hkeeps : ∀ phase ∈ [Phase.primal, .exchange, .dual], ∀ r s : Run τ Rat,
      Run.Move phase r s → Canonical p r.toBoard → Canonical p s.toBoard := by
    intro phase hphase r s hmove hr
    exact hr.move hmove (by rintro rfl; simp at hphase)
  refine ⟨hmoves.keeps hkeeps hbegin, fun e earlier he hsince => ?_⟩
  exact hmoves.moments (I := fun r => Canonical p r.toBoard) hkeeps
    (Run.traced_begin p rule threshold).latest hbegin he hsince

end Begin

/-! ## All moments -/

/-- From the initial basis on, at every moment and at the end, the tableau has the solutions and the
objective of the program, every row has a basic column, no two rows have the same, and those that
can be read are unit columns without cost. -/
theorem Simplex.canonical_from_basis (p : StandardForm Rat n) (rule : PivotRule)
    (threshold places : Nat) :
    let b : Run (Dense Rat) Rat := Run.begin (.ofStandardForm p rule threshold)
    let r := (Simplex.new (τ := Dense Rat) p rule threshold places).solve.run
    Canonical p b.toBoard ∧ Canonical p r.toBoard ∧ b.history <:+ r.history ∧
      ∀ e earlier, e :: earlier <:+ r.history → b.history <:+ e :: earlier →
        Canonical p e.after := by
  obtain ⟨hr, hall⟩ := canonical_moments (τ := Dense Rat) p rule threshold places
  exact ⟨Run.canonical_begin p rule threshold, hr,
    (moves_begin p rule threshold places).history, hall⟩

def redundantProgram : StandardForm Rat 2 where
  cost := #v[1, 1]
  equations := [⟨#v[1, 2], 4⟩, ⟨#v[1, 2], 4⟩]

/-- The moment at which the second equation is removed. -/
theorem Simplex.redundantProgram_canonical :
    let b : Run (Dense Rat) Rat := Run.begin (.ofStandardForm redundantProgram .firstProfitable 5)
    let r := (Simplex.new (τ := Dense Rat) redundantProgram .firstProfitable 5 7).solve.run
    ∃ e earlier, e :: earlier <:+ r.history ∧ b.history <:+ e :: earlier ∧
      nrRows e.board.tableau = 3 ∧ nrRows e.after.tableau = 2 ∧
      Canonical redundantProgram e.after := by
  obtain ⟨-, -, hbegin, hall⟩ := canonical_from_basis redundantProgram .firstProfitable 5 7
  have hmoment := Run.moment_suffix (Simplex.new (τ := Dense Rat) redundantProgram
    .firstProfitable 5 7).solve.run (k := 2) (by decide +kernel)
  have hsince := List.suffix_of_suffix_length_le hbegin hmoment (by decide +kernel)
  exact ⟨_, _, hmoment, hsince, by decide +kernel, by decide +kernel, hall _ _ hmoment hsince⟩

end LinProg
