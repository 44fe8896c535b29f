import LinProg.Proofs.Simplex.Equations
import LinProg.Simplex.Basis

/-!
# Canonical tableaus

`Sound` is what holds of a board from the first tableau to the last: the tableau represents the
program, and every basic column that can still be read is the unit vector of its row, with zero in
the cost row.  A pivot on any nonzero value of a constraint row keeps it, because the other basic
columns are zero in that row; no choice of row or column matters.
-/

namespace LinProg

namespace Tableau

variable {τ : Type} [Tableau τ Rat]

def IsUnit (t : τ) (c row : Nat) : Prop := ∀ i < nrRows t, get t i c = if i = row then 1 else 0

theorem IsUnit.self {t : τ} {c row : Nat} (h : IsUnit t c row) (hrow : row < nrRows t) :
    get t row c = 1 := by
  rw [h row hrow, if_pos rfl]

theorem IsUnit.of_ne {t : τ} {c row i : Nat} (h : IsUnit t c row) (hi : i < nrRows t)
    (hne : i ≠ row) : get t i c = 0 := by
  rw [h i hi, if_neg hne]

theorem IsUnit.unique {t : τ} {c row i : Nat} (h : IsUnit t c row) (hi : IsUnit t c i)
    (hrow : row < nrRows t) : row = i := by
  by_contra hne
  have h1 := h.self hrow
  rw [hi.of_ne hrow hne] at h1
  exact zero_ne_one h1

theorem IsUnit.congr {t u : τ} {c row : Nat} (h : IsUnit t c row) (hrows : nrRows u = nrRows t)
    (hget : ∀ i, get u i c = get t i c) : IsUnit u c row := by
  intro i hi
  rw [hget, h i (hrows ▸ hi)]

variable [LawfulTableau τ]

theorem isUnit_pivot_self {t : τ} {row c : Nat} (h0 : get t row c ≠ 0) :
    IsUnit (pivot t row c) c row := by
  intro i _
  rw [LawfulTableau.get_pivot t row c i c h0, div_self h0]
  split
  · rfl
  · rw [mul_one, sub_self]

theorem get_pivot_of_zero {t : τ} {row c d : Nat} (h0 : get t row c ≠ 0) (hd : get t row d = 0)
    (i : Nat) : get (pivot t row c) i d = get t i d := by
  rw [LawfulTableau.get_pivot t row c i d h0, hd, zero_div, mul_zero, sub_zero]
  split
  next h => rw [h, hd]
  next => rfl

end Tableau

namespace Board

variable {τ : Type} [Tableau τ Rat] {n : Nat}

open Tableau

/-- The invariant of the simplex method on a program. -/
structure Sound (p : StandardForm Rat n) (b : Board τ Rat) : Prop where
  nrVariables : b.nrVariables = n
  represents : Represents p b.tableau
  /-- The right hand side is no artificial column. -/
  firstArtificial : n < b.firstArtificial
  length : b.basis.length + 1 = nrRows b.tableau
  unit : ∀ row ∈ constraintRows b.tableau, ∀ c, b.basic row = some c →
    c < nrColumns b.tableau → IsUnit b.tableau c row
  kind : ∀ row ∈ constraintRows b.tableau, ∀ c, b.basic row = some c →
    c < n ∨ b.firstArtificial ≤ c

def IsFull (b : Board τ Rat) : Prop :=
  ∀ row ∈ constraintRows b.tableau, ∃ c, b.basic row = some c

def HasArtificial (b : Board τ Rat) : Prop :=
  ∃ row ∈ constraintRows b.tableau, b.isArtificial (b.basic row) = true

instance (b : Board τ Rat) : Decidable b.HasArtificial :=
  inferInstanceAs (Decidable (∃ row ∈ _, _))

omit [Tableau τ Rat] in
theorem isArtificial_iff {b : Board τ Rat} {basic : Option Nat} :
    b.isArtificial basic = true ↔ ∃ c, basic = some c ∧ b.firstArtificial ≤ c := by
  cases basic <;> simp [isArtificial]

variable {p : StandardForm Rat n} {b : Board τ Rat}

/-- Guard, state and counters don't matter. -/
theorem Sound.of_eq (h : Sound p b) {b' : Board τ Rat} (ht : b'.tableau = b.tableau)
    (hn : b'.nrVariables = b.nrVariables) (hbasis : b'.basis = b.basis)
    (hfirst : b'.firstArtificial = b.firstArtificial) : Sound p b' := by
  cases b
  cases b'
  subst ht hn hbasis hfirst
  exact ⟨h.nrVariables, h.represents, h.firstArtificial, h.length, h.unit, h.kind⟩

theorem Sound.rhs (h : Sound p b) : b.rhs = n := h.nrVariables

theorem Sound.index_lt (h : Sound p b) {row : Nat} (hrow : row ∈ constraintRows b.tableau) :
    row - 1 < b.basis.length := by
  have := h.length
  simp only [mem_constraintRows] at hrow
  omega

theorem Sound.unit_of_lt (h : Sound p b) {row c : Nat} (hrow : row ∈ constraintRows b.tableau)
    (hc : b.basic row = some c) (hcn : c < n) : IsUnit b.tableau c row :=
  h.unit row hrow c hc (hcn.trans h.represents.width)

theorem Sound.get_basic_of_ne (h : Sound p b) {row i c : Nat}
    (hrow : row ∈ constraintRows b.tableau) (hc : b.basic row = some c)
    (hcn : c < nrColumns b.tableau) (hi : i < nrRows b.tableau) (hne : i ≠ row) :
    get b.tableau i c = 0 :=
  (h.unit row hrow c hc hcn).of_ne hi hne

theorem Sound.basic_cases (h : Sound p b) (hfull : b.IsFull) {row : Nat}
    (hrow : row ∈ constraintRows b.tableau) :
    (∃ c < n, b.basic row = some c) ∨ b.isArtificial (b.basic row) = true := by
  obtain ⟨c, hc⟩ := hfull row hrow
  rcases h.kind row hrow c hc with hcn | hca
  · exact .inl ⟨c, hcn, hc⟩
  · exact .inr (isArtificial_iff.2 ⟨c, hc, hca⟩)

theorem Sound.isArtificial_of_lt (h : Sound p b) {row c : Nat} (hc : b.basic row = some c)
    (hcn : c < n) : b.isArtificial (b.basic row) = false := by
  have := h.firstArtificial
  simp [hc, isArtificial]
  omega

/-! ## Another basic column -/

theorem getD_set_basis (basis : List (Option Nat)) {row i : Nat} (v : Option Nat)
    (hrow : row - 1 < basis.length) (h0 : 0 < row) (hi : 0 < i) :
    (basis.set (row - 1) v).getD (i - 1) none =
      if i = row then v else basis.getD (i - 1) none := by
  simp only [List.getD_eq_getElem?_getD, List.getElem?_set]
  by_cases h : i = row
  · subst h
    simp [hrow]
  · rw [if_neg (by omega), if_neg h]

/-- The board with another tableau and another basic column in a row. -/
def exchanged (b : Board τ Rat) (t : τ) (row c : Nat) : Board τ Rat :=
  { b with tableau := t, basis := b.basis.set (row - 1) (some c) }

theorem Sound.basic_exchanged (h : Sound p b) (t : τ) {row i : Nat} (c : Nat)
    (hrow : row ∈ constraintRows b.tableau) (hi : i ∈ constraintRows b.tableau) :
    (b.exchanged t row c).basic i = if i = row then some c else b.basic i :=
  getD_set_basis b.basis (some c) (h.index_lt hrow) (mem_constraintRows.1 hrow).1
    (mem_constraintRows.1 hi).1

/-- A board stays sound if the new basic column is a unit vector and the others are left alone. -/
theorem Sound.exchanged (h : Sound p b) {t : τ} {row c : Nat}
    (hrow : row ∈ constraintRows b.tableau) (ht : Represents p t)
    (hrows : nrRows t = nrRows b.tableau) (hc : c < n ∨ b.firstArtificial ≤ c)
    (hunit : IsUnit t c row)
    (hother : ∀ i ∈ constraintRows b.tableau, i ≠ row → ∀ d, b.basic i = some d →
      d < nrColumns t → d < nrColumns b.tableau ∧ ∀ k, get t k d = get b.tableau k d) :
    Sound p (b.exchanged t row c) := by
  have hmem {i : Nat} : i ∈ constraintRows t → i ∈ constraintRows b.tableau := by
    rw [constraintRows_congr hrows]
    exact id
  refine ⟨h.nrVariables, ht, h.firstArtificial, ?_, fun i hi d hd hdn => ?_, fun i hi d hd => ?_⟩
  · simpa [Board.exchanged, hrows] using h.length
  · rw [h.basic_exchanged t c hrow (hmem hi)] at hd
    split at hd
    next hir => exact Option.some.inj hd ▸ hir ▸ hunit
    next hir =>
      obtain ⟨hlt, hget⟩ := hother i (hmem hi) hir d hd hdn
      exact (h.unit i (hmem hi) d hd hlt).congr hrows hget
  · rw [h.basic_exchanged t c hrow (hmem hi)] at hd
    split at hd
    · exact Option.some.inj hd ▸ hc
    · exact h.kind i (hmem hi) d hd

theorem IsFull.exchanged (hfull : b.IsFull) (h : Sound p b) {t : τ} {row c : Nat}
    (hrow : row ∈ constraintRows b.tableau) (hrows : nrRows t = nrRows b.tableau) :
    (b.exchanged t row c).IsFull := by
  intro i hi
  have hi : i ∈ constraintRows b.tableau := by
    rwa [← constraintRows_congr hrows]
  rw [h.basic_exchanged t c hrow hi]
  split
  · exact ⟨c, rfl⟩
  · exact hfull i hi

variable [LawfulTableau τ]

theorem Sound.pivot (h : Sound p b) {row c : Nat} (hrow : row ∈ constraintRows b.tableau)
    (hc : c < n) (h0 : get b.tableau row c ≠ 0) :
    Sound p (b.exchanged (Tableau.pivot b.tableau row c) row c) := by
  refine h.exchanged hrow (h.represents.pivot hrow h0) (by simp) (.inl hc)
    (isUnit_pivot_self h0) fun i hi hir d hd hdn => ?_
  have hdn : d < nrColumns b.tableau := by simpa using hdn
  -- the other basic columns are zero in the pivot row
  have hzero := h.get_basic_of_ne hi hd hdn (mem_constraintRows.1 hrow).2 (Ne.symm hir)
  exact ⟨hdn, get_pivot_of_zero h0 hzero⟩

end Board

end LinProg
