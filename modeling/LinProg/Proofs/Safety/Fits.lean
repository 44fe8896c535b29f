import LinProg.Proofs.Safety.Checked
import LinProg.Proofs.Simplex.Moves

/-!
# Boards on which every access succeeds

A board fits if the columns in front of the artificial ones are active, every row has a place in the
basis, and dual values are tracked by such columns with a coefficient that isn't zero.  Every move
of a run keeps that (`Run.Move.fits`).  Where a board fits, rows and columns that belong to it are
read without failure, and a loop whose every step succeeds does so as a whole.
-/

namespace LinProg

open Tableau

/-! ## Lists -/

namespace Checked

section Lists

variable {σ β γ : Type}

theorem foldlM_eq {f : σ → β → Option σ} {g : σ → β → σ} {I : σ → Prop} (l : List β)
    (h : ∀ s, I s → ∀ x ∈ l, f s x = some (g s x) ∧ I (g s x)) (s : σ) (hs : I s) :
    l.foldlM f s = some (l.foldl g s) := by
  induction l generalizing s with
  | nil => rfl
  | cons x rest ih =>
    obtain ⟨hx, hnext⟩ := h s hs x List.mem_cons_self
    rw [List.foldlM_cons, hx, List.foldl_cons]
    exact ih (fun s hs y hy => h s hs y (List.mem_cons_of_mem x hy)) (g s x) hnext

theorem mapM_eq {f : β → Option γ} {g : β → γ} (l : List β) (h : ∀ x ∈ l, f x = some (g x)) :
    l.mapM f = some (l.map g) := by
  induction l with
  | nil => rfl
  | cons x rest ih =>
    rw [List.mapM_cons, h x List.mem_cons_self, List.map_cons,
      ih fun y hy => h y (List.mem_cons_of_mem x hy)]
    rfl

theorem anyM_eq {f : β → Option Bool} {g : β → Bool} (l : List β) (h : ∀ x ∈ l, f x = some (g x)) :
    l.anyM f = some (l.any g) := by
  induction l with
  | nil => rfl
  | cons x rest ih =>
    rw [List.anyM_cons, h x List.mem_cons_self, List.any_cons]
    cases g x with
    | true => rfl
    | false => exact ih fun y hy => h y (List.mem_cons_of_mem x hy)

theorem findM?_eq {f : β → Option Bool} {g : β → Bool} (l : List β)
    (h : ∀ x ∈ l, f x = some (g x)) : l.findM? f = some (l.find? g) := by
  induction l with
  | nil => rfl
  | cons x rest ih =>
    rw [List.findM?, h x List.mem_cons_self, List.find?_cons]
    cases g x with
    | true => rfl
    | false => exact ih fun y hy => h y (List.mem_cons_of_mem x hy)

theorem filter_eq {test : β → Option Bool} {g : β → Bool} (l : List β)
    (h : ∀ x ∈ l, test x = some (g x)) : filter test l = some (l.filter g) := by
  induction l with
  | nil => rfl
  | cons x rest ih =>
    rw [filter, h x List.mem_cons_self, ih fun y hy => h y (List.mem_cons_of_mem x hy),
      List.filter_cons]
    rfl

/-- A loop that stops within its rounds succeeds if a test holds at its end, provided that each step
does so and none makes up for a test that failed before. -/
theorem rounds_eq {step : σ → Option (σ × Bool)} {step' : σ → σ × Bool} {I : σ → Prop}
    {test : σ → Bool} (h : ∀ s, I s → test s → step s = Option.guard (test ·.1) (step' s))
    (hkeeps : ∀ s, I s → (step' s).2 = true → I (step' s).1)
    (hback : ∀ s, test (step' s).1 → test s) (fuel : Nat) (s : σ) (hs : I s) (htest : test s)
    (hstops : (LinProg.rounds step' fuel s).2 = false) :
    rounds step fuel s = Option.guard test (LinProg.rounds step' fuel s).1 := by
  induction fuel generalizing s with
  | zero => cases hstops
  | succ fuel ih =>
    have hkept := hkeeps s hs
    rw [rounds, h s hs htest]
    rw [LinProg.rounds] at hstops ⊢
    generalize step' s = out at hkept hstops ⊢
    obtain ⟨next, again⟩ := out
    dsimp only at hkept hstops ⊢
    cases hnext : test next with
    | true =>
      rw [Option.guard_pos (p := (test ·.1)) (a := (next, again)) hnext]
      cases again with
      | true => exact ih next (hkept rfl) hnext hstops
      | false => exact (Option.guard_pos hnext).symm
    | false =>
      rw [Option.guard_eq_none_iff (p := (test ·.1)) (a := (next, again)) |>.2 hnext]
      cases again with
      | true =>
        have hlast : test (LinProg.rounds step' fuel next).1 = false :=
          rounds_preserves (I := fun s => test s = false)
            (fun s hs => Bool.eq_false_iff.2 fun h => Bool.eq_false_iff.1 hs (hback s h)) fuel next
            hnext
        exact (Option.guard_eq_none_iff.2 hlast).symm
      | false => exact (Option.guard_eq_none_iff.2 hnext).symm

theorem setAt_eq {l : List β} {i : Nat} (h : i < l.length) (x : β) :
    setAt l i x = some (l.set i x) := if_pos h

end Lists

/-! ## Tableaus -/

section Tableaus

variable {τ : Type} [Tableau τ Rat] {t : τ} {row column width : Nat}

theorem quotient_eq {x y : Rat} (h : y ≠ 0) : quotient x y = some (x / y) :=
  if_neg (by simpa using h)

theorem read_eq (hrow : row < nrRows t) (hcolumn : column < nrColumns t) :
    read t row column = some (get t row column) := if_pos ⟨hrow, hcolumn⟩

theorem isZero_eq (hrow : row < nrRows t) (hcolumn : column < nrColumns t) :
    isZero t row column = some (Tableau.isZero t row column) := by
  rw [isZero, read_eq hrow hcolumn]
  rfl

theorem isPositive_eq (hrow : row < nrRows t) (hcolumn : column < nrColumns t) :
    isPositive t row column = some (Tableau.isPositive t row column) := by
  rw [isPositive, read_eq hrow hcolumn]
  rfl

theorem isNegative_eq (hrow : row < nrRows t) (hcolumn : column < nrColumns t) :
    isNegative t row column = some (Tableau.isNegative t row column) := by
  rw [isNegative, read_eq hrow hcolumn]
  rfl

theorem anyPositive_eq (hrow : row < nrRows t) (hwidth : width ≤ nrColumns t) :
    anyPositive t row width = some (Tableau.anyPositive t row width) :=
  anyM_eq _ fun _ hj => isPositive_eq hrow ((List.mem_range.1 hj).trans_le hwidth)

theorem anyNonzero_eq (hrow : row < nrRows t) (hwidth : width ≤ nrColumns t) :
    anyNonzero t row width = some (Tableau.anyNonzero t row width) :=
  anyM_eq _ fun j hj => by
    rw [isZero_eq hrow ((List.mem_range.1 hj).trans_le hwidth)]
    rfl

theorem compare_eq {a b : Nat × Nat} (ha : a.1 < nrRows t ∧ a.2 < nrColumns t)
    (hb : b.1 < nrRows t ∧ b.2 < nrColumns t) :
    compare t a b = some (Tableau.compare t a b) := by
  rw [compare, read_eq ha.1 ha.2, read_eq hb.1 hb.2]
  rfl

end Tableaus

end Checked

/-! ## Boards -/

namespace Board

variable {τ : Type} [Tableau τ Rat]

def HasPlaces (b : Board τ Rat) : Prop := b.basis.length + 1 = nrRows b.tableau

/-- What every access relies on. -/
structure Fits (b : Board τ Rat) : Prop where
  rhs_lt : b.nrVariables < b.firstArtificial
  active : b.firstArtificial ≤ nrColumns b.tableau
  places : b.HasPlaces
  tracked : ∀ k a, some (k, a) ∈ b.dualColumns → k < b.firstArtificial ∧ a ≠ 0

namespace Fits

variable {b : Board τ Rat} {row column : Nat}

theorem length (h : b.Fits) : b.basis.length + 1 = nrRows b.tableau := h.places

theorem costRow (h : b.Fits) : 0 < nrRows b.tableau := h.length ▸ Nat.succ_pos _

theorem lt_nrColumns (h : b.Fits) (hcolumn : column ≤ b.nrVariables) :
    column < nrColumns b.tableau :=
  hcolumn.trans_lt (h.rhs_lt.trans_le h.active)

theorem lt_length (h : b.Fits) (hrow : row ∈ constraintRows b.tableau) :
    row - 1 < b.basis.length := by
  have hlength := h.length
  rw [mem_constraintRows] at hrow
  omega

theorem read (h : b.Fits) (hrow : row ∈ constraintRows b.tableau)
    (hcolumn : column ≤ b.nrVariables) :
    Checked.read b.tableau row column = some (get b.tableau row column) :=
  Checked.read_eq (mem_constraintRows.1 hrow).2 (h.lt_nrColumns hcolumn)

theorem read_cost (h : b.Fits) (hcolumn : column ≤ b.nrVariables) :
    Checked.read b.tableau 0 column = some (get b.tableau 0 column) :=
  Checked.read_eq h.costRow (h.lt_nrColumns hcolumn)

theorem isZero (h : b.Fits) (hrow : row ∈ constraintRows b.tableau)
    (hcolumn : column ≤ b.nrVariables) :
    Checked.isZero b.tableau row column = some (Tableau.isZero b.tableau row column) :=
  Checked.isZero_eq (mem_constraintRows.1 hrow).2 (h.lt_nrColumns hcolumn)

theorem isPositive (h : b.Fits) (hrow : row ∈ constraintRows b.tableau)
    (hcolumn : column ≤ b.nrVariables) :
    Checked.isPositive b.tableau row column = some (Tableau.isPositive b.tableau row column) :=
  Checked.isPositive_eq (mem_constraintRows.1 hrow).2 (h.lt_nrColumns hcolumn)

theorem isNegative (h : b.Fits) (hrow : row ∈ constraintRows b.tableau)
    (hcolumn : column ≤ b.nrVariables) :
    Checked.isNegative b.tableau row column = some (Tableau.isNegative b.tableau row column) :=
  Checked.isNegative_eq (mem_constraintRows.1 hrow).2 (h.lt_nrColumns hcolumn)

theorem entry (h : b.Fits) (hrow : row ∈ constraintRows b.tableau) :
    Checked.entry b.basis row = some (b.basic row) := by
  have hlt := h.lt_length hrow
  rw [Checked.entry, if_pos (mem_constraintRows.1 hrow).1, basic, List.getD_eq_getElem?_getD,
    List.getElem?_eq_getElem hlt]
  rfl

theorem setEntry (h : b.Fits) (hrow : row ∈ constraintRows b.tableau) (x : Option Nat) :
    Checked.setEntry b.basis row x = some (b.basis.set (row - 1) x) := by
  rw [Checked.setEntry, if_pos (mem_constraintRows.1 hrow).1, Checked.setAt_eq (h.lt_length hrow)]

theorem agrees {c : Board τ Rat} (h : b.Fits) (hagrees : Agrees b c) : c.Fits := by
  obtain ⟨guard, state, iterations, rfl⟩ := hagrees
  exact ⟨h.rhs_lt, h.active, h.places, h.tracked⟩

theorem exchanged (h : b.Fits) {t : τ} (hrows : nrRows t = nrRows b.tableau)
    (hcolumns : nrColumns b.tableau ≤ nrColumns t) : (b.exchanged t row column).Fits :=
  ⟨h.rhs_lt, h.active.trans hcolumns,
    (congrArg (· + 1) (List.length_set ..)).trans (h.length.trans hrows.symm), h.tracked⟩

theorem widens {c : Board τ Rat} (h : b.Fits) (hwidens : Run.Widens b c) : c.Fits where
  rhs_lt := by
    rw [hwidens.nrVariables, hwidens.firstArtificial]
    exact h.rhs_lt
  active := hwidens.firstArtificial ▸ h.active.trans hwidens.nrColumns
  places := by
    rw [HasPlaces, hwidens.length, hwidens.nrRows, h.length]
  tracked := by
    rw [hwidens.dualColumns, hwidens.firstArtificial]
    exact h.tracked

end Fits

variable [LawfulTableau τ] {b : Board τ Rat} {row : Nat}

theorem Fits.removed (h : b.Fits) (hrow : row ∈ constraintRows b.tableau) :
    (b.removed row).Fits where
  rhs_lt := h.rhs_lt
  active := h.active.trans (ShapedTableau.nrColumns_removeRow b.tableau row).ge
  places := by
    have hlt := h.lt_length hrow
    have hlength := h.length
    show (b.basis.eraseIdx (row - 1)).length + 1 = nrRows (removeRow b.tableau row)
    rw [List.length_eraseIdx_of_lt hlt,
      ShapedTableau.nrRows_removeRow b.tableau row (mem_constraintRows.1 hrow).2]
    omega
  tracked := h.tracked

theorem Fits.truncated (h : b.Fits) :
    ({ b with tableau := truncateColumns b.tableau b.firstArtificial } : Board τ Rat).Fits where
  rhs_lt := h.rhs_lt
  active := by
    rw [ShapedTableau.nrColumns_truncateColumns]
    exact le_min le_rfl h.active
  places := h.length.trans (ShapedTableau.nrRows_truncateColumns _ _).symm
  tracked := h.tracked

end Board

namespace Run

variable {τ : Type} [Tableau τ Rat] [LawfulTableau τ] {phase : Phase} {r s : Run τ Rat}

theorem Move.fits (h : Move phase r s) (hr : r.Fits) : s.Fits := by
  cases h with
  | note event hevent => exact hr
  | mark guard state iterations => exact hr.agrees ⟨guard, state, iterations, rfl⟩
  | pivot hrow hc hpicks =>
    exact hr.exchanged (ShapedTableau.nrRows_pivot ..) (ShapedTableau.nrColumns_pivot ..).ge
  | fill hnone => exact hr.widens (widens_addArtificials r)
  | remove hrow hredundant => exact hr.removed hrow
  | drop => exact hr.truncated

theorem Moves.fits {phases : List Phase} (h : Moves phases r s) (hr : r.Fits) : s.Fits :=
  h.keeps (I := fun s : Run τ Rat => s.Fits) (fun _ _ _ _ hmove hr => hmove.fits hr) hr

omit [LawfulTableau τ] in
/-- What a move notes is the board before it or after it. -/
theorem Move.noted (h : Move phase r s) : s.history = r.history ∨
    ∃ e, s.history = e :: r.history ∧ (e.board = r.toBoard ∨ e.board = s.toBoard) ∧
      e.after = s.toBoard := by
  cases h with
  | note event hevent => exact .inr ⟨_, rfl, .inl rfl, Entry.after_of_isNote hevent⟩
  | mark guard state iterations => exact .inl rfl
  | pivot hrow hc hpicks => exact .inr ⟨_, rfl, .inr rfl, rfl⟩
  | fill hnone => exact .inr ⟨_, history_addArtificials hnone, .inr rfl, rfl⟩
  | remove hrow hredundant => exact .inr ⟨_, rfl, .inl rfl, rfl⟩
  | drop => exact .inr ⟨_, rfl, .inr rfl, rfl⟩

theorem Moves.fits_history {phases : List Phase} (h : Moves phases r s) (hr : r.Fits)
    (hhistory : ∀ e ∈ r.history, e.board.Fits ∧ e.after.Fits) :
    ∀ e ∈ s.history, e.board.Fits ∧ e.after.Fits := by
  refine (h.keeps (I := fun s : Run τ Rat =>
    s.Fits ∧ ∀ e ∈ s.history, e.board.Fits ∧ e.after.Fits) ?_ ⟨hr, hhistory⟩).2
  rintro phase' - s t hmove ⟨hs, hnoted⟩
  have ht := hmove.fits hs
  refine ⟨ht, ?_⟩
  obtain heq | ⟨e, heq, hboard, hafter⟩ := hmove.noted
  · exact heq ▸ hnoted
  · rw [heq, List.forall_mem_cons]
    exact ⟨⟨hboard.elim (· ▸ hs) (· ▸ ht), hafter ▸ ht⟩, hnoted⟩

end Run

end LinProg
