import LinProg.Proofs.Safety.Fits
import LinProg.Proofs.Simplex.DualColumns
import LinProg.Proofs.Simplex.Kept

/-!
# The initial basis is found without failure

A board that fits can be prepared and given a basis with every access checked, and both boards fit
again.  The board of a program in standard form fits.
-/

namespace LinProg

open Tableau

variable {τ : Type} [Tableau τ Rat] {n : Nat}

namespace Checked

open Board

variable {b : Board τ Rat} {r : Run τ Rat} {row column : Nat}

/-! ## Choice of rows -/

theorem pivotRun_eq (h : r.Fits) (phase : Phase) (hrow : row ∈ constraintRows r.tableau)
    (hcolumn : column < r.nrVariables) (hne : get r.tableau row column ≠ 0) :
    pivotRun r phase row column = some (r.pivot phase row column) := by
  rw [pivotRun, pivot, h.read hrow hcolumn.le, h.setEntry hrow]
  dsimp only [Option.bind_eq_bind, Option.bind_some]
  rw [if_neg (by simpa using hne)]
  rfl

theorem singlePositiveRow_eq (h : b.Fits) (hcolumn : column ≤ b.nrVariables) :
    singlePositiveRow b.tableau column = some (Run.singlePositiveRow b.tableau column) := by
  rw [singlePositiveRow, filter_eq _ fun row hrow => h.isPositive hrow hcolumn,
    Run.singlePositiveRow]
  dsimp only [Option.bind_eq_bind, Option.bind_some]
  generalize (constraintRows b.tableau).filter _ = rows
  match rows with
  | [] | [_] | _ :: _ :: _ => rfl

theorem betterRow_eq (h : b.Fits) (hcolumn : column ≤ b.nrVariables)
    {best : Option (Nat × Rat)} (hbest : Run.IsCandidate b column best)
    (hrow : row ∈ constraintRows b.tableau) :
    betterRow b column best row = some (Run.betterRow b column best row) := by
  rw [betterRow, h.isPositive hrow hcolumn, Run.betterRow]
  dsimp only [Option.bind_eq_bind, Option.bind_some]
  split
  next hpos =>
    have hne : get b.tableau row column ≠ 0 := by
      have : 0 < get b.tableau row column := by simpa [Tableau.isPositive] using hpos
      exact this.ne'
    rw [h.read hrow le_rfl, h.read hrow hcolumn]
    dsimp only [Option.bind_eq_bind, Option.bind_some]
    rw [quotient_eq hne]
    dsimp only [Option.bind_eq_bind, Option.bind_some]
    cases best with
    | none => rfl
    | some best =>
      obtain ⟨bestRow, bestRatio⟩ := best
      dsimp only
      rw [h.entry hrow, h.entry (hbest bestRow bestRatio rfl).1]
      dsimp only [Option.bind_some]
      split <;> rfl
  next => rfl

theorem ratioRow_eq (h : b.Fits) (hcolumn : column ≤ b.nrVariables) :
    ratioRow b column = some (Run.ratioRow b column) := by
  rw [ratioRow, foldlM_eq (g := Run.betterRow b column) (I := Run.IsCandidate b column) _
    (fun best hbest row hrow => ⟨betterRow_eq h hcolumn hbest hrow,
      Run.isCandidate_betterRow hrow hbest⟩) none fun _ _ hnone => by cases hnone]
  rfl

theorem enter_eq (h : r.Fits) (hcolumn : column < r.nrVariables)
    {choose : Board τ Rat → Nat → Option (Option Nat)} {choose' : Board τ Rat → Nat → Option Nat}
    (heq : choose r.toBoard column = some (choose' r.toBoard column))
    (hchoose : ∀ row, choose' r.toBoard column = some row →
      row ∈ constraintRows r.tableau ∧ 0 < get r.tableau row column) :
    enter choose r column = some (Run.enter choose' r column) := by
  rw [enter, heq, Run.enter]
  dsimp only [Option.bind_eq_bind, Option.bind_some]
  cases hchosen : choose' r.toBoard column with
  | none => rfl
  | some row =>
    obtain ⟨hmem, hpos⟩ := hchoose row hchosen
    dsimp only
    rw [h.entry hmem]
    dsimp only [Option.bind_some]
    split
    · exact pivotRun_eq h .start hmem hcolumn hpos.ne'
    · rfl

/-! ## Preparation -/

theorem keepsSign_eq (h : b.Fits) (hrow : row ∈ constraintRows b.tableau) :
    keepsSign b row = some (Run.keepsSign b row) := by
  rw [keepsSign, h.isPositive hrow le_rfl, h.isZero hrow le_rfl,
    anyPositive_eq (mem_constraintRows.1 hrow).2 (h.lt_nrColumns le_rfl).le]
  rfl

theorem keptSigns_eq (h : b.Fits) :
    keptSigns b = some ((constraintRows b.tableau).map (Run.keepsSign b)) :=
  mapM_eq _ fun row hrow => by
    rw [h.entry hrow, Option.bind_eq_bind, Option.bind_some, keepsSign_eq h hrow]

theorem entry_keptSigns (hrow : row ∈ constraintRows b.tableau) :
    entry ((constraintRows b.tableau).map (Run.keepsSign b)) row = some (Run.keepsSign b row) := by
  rw [mem_constraintRows] at hrow
  rw [entry, if_pos hrow.1, List.getElem?_map, constraintRows,
    List.getElem?_range' (by omega), Nat.one_mul, Nat.add_sub_cancel' hrow.1]
  rfl

variable [LawfulTableau τ]

theorem nonnegative_eq (b : Board τ Rat) :
    nonnegative b ((constraintRows b.tableau).map (Run.keepsSign b)) =
      some (Run.nonnegative b) := by
  refine foldlM_eq (I := fun t => nrRows t = nrRows b.tableau) _ (fun t ht row hrow => ?_) _ rfl
  rw [entry_keptSigns hrow]
  dsimp only [Option.bind_eq_bind, Option.bind_some]
  split
  · exact ⟨rfl, ht⟩
  · exact ⟨if_pos (ht ▸ (mem_constraintRows.1 hrow).2),
      (ShapedTableau.nrRows_negateRow t row).trans ht⟩

theorem addDualColumns_eq (b : Board τ Rat) (columns : List (Option (Nat × Rat))) (row : Nat)
    (t : τ) (hrow : 0 < row) (ht : nrRows t = nrRows b.tableau)
    (hlength : row + columns.length ≤ nrRows t) :
    addDualColumns ((constraintRows b.tableau).map (Run.keepsSign b)) row t columns =
      some (Run.addDualColumns (Run.sign b) row t columns) := by
  induction columns generalizing row t with
  | nil => rfl
  | cons found rest ih =>
    rw [List.length_cons] at hlength
    cases found with
    | some found =>
      rw [addDualColumns, ih (row + 1) t (Nat.succ_pos row) ht (by omega)]
      rfl
    | none =>
      have hmem : row ∈ constraintRows b.tableau := mem_constraintRows.2 ⟨hrow, by omega⟩
      have hwrite : write (addColumn t) row (nrColumns t) (1 : Rat) =
          some (set (addColumn t) row (nrColumns t) 1) :=
        if_pos (by simp; omega)
      have hrest := ih (row + 1) (set (addColumn t) row (nrColumns t) 1) (Nat.succ_pos row)
        (by simpa using ht) (by simp; omega)
      rw [addDualColumns, entry_keptSigns hmem, hwrite]
      dsimp only [Option.bind_eq_bind, Option.bind_some]
      rw [hrest]
      rfl

theorem prepare_eq (h : r.Fits) (hlength : r.dualColumns.length + 1 = nrRows r.tableau) :
    prepare r = some r.prepare := by
  have hrows : nrRows (Run.nonnegative r.toBoard) = nrRows r.tableau :=
    (Run.shape_nonnegative r.toBoard).1
  rw [prepare, keptSigns_eq h]
  dsimp only [Option.bind_eq_bind, Option.bind_some]
  rw [nonnegative_eq]
  dsimp only [Option.bind_eq_bind, Option.bind_some]
  rw [addDualColumns_eq r.toBoard _ _ _ Nat.one_pos hrows (by omega)]
  rfl

/-! ## Choice of a basis -/

theorem foldlM_enter_eq {choose : Board τ Rat → Nat → Option (Option Nat)}
    {choose' : Board τ Rat → Nat → Option Nat}
    (heq : ∀ b : Board τ Rat, b.Fits → ∀ column ≤ b.nrVariables,
      choose b column = some (choose' b column))
    (hchoose : ∀ b column row, choose' b column = some row →
      row ∈ constraintRows b.tableau ∧ 0 < get b.tableau row column)
    (columns : List Nat) (h : r.Fits) (hcolumns : ∀ c ∈ columns, c < r.nrVariables) :
    columns.foldlM (enter choose) r = some (columns.foldl (Run.enter choose') r) := by
  refine foldlM_eq (I := fun s : Run τ Rat => s.Fits ∧ s.nrVariables = r.nrVariables) _ ?_ _
    ⟨h, rfl⟩
  rintro s ⟨hs, hn⟩ c hc
  have hlt : c < s.nrVariables := hn ▸ hcolumns c hc
  refine ⟨enter_eq hs hlt (heq _ hs c hlt.le) fun row hrow => hchoose _ c row hrow, ?_,
    (Run.nrVariables_enter ..).trans hn⟩
  unfold Run.enter
  split
  · split
    · exact hs.exchanged (ShapedTableau.nrRows_pivot ..) (ShapedTableau.nrColumns_pivot ..).ge
    · exact hs
  · exact hs

theorem enterSingles_eq (h : r.Fits) : enterSingles r = some r.enterSingles :=
  foldlM_enter_eq (fun _ hb _ hc => singlePositiveRow_eq hb hc)
    (fun _ _ _ => Run.get_pos_of_singlePositiveRow) _ h fun c hc => by simpa using hc

theorem enterOthers_eq (h : r.Fits) : enterOthers r = some r.enterOthers :=
  foldlM_enter_eq (fun _ hb _ hc => ratioRow_eq hb hc) (fun _ _ _ => Run.get_pos_of_ratioRow) _ h
    fun _ hc => List.mem_range.1 (List.mem_filter.1 hc).1

theorem addArtificial_eq (h : r.Fits) (hrow : row ∈ constraintRows r.tableau) :
    addArtificial r row = some (r.addArtificial row) := by
  rw [addArtificial, h.entry hrow, Run.addArtificial]
  dsimp only [Option.bind_eq_bind, Option.bind_some]
  split
  · have hwrite : write (addColumn r.tableau) row (nrColumns r.tableau) (1 : Rat) =
        some (set (addColumn r.tableau) row (nrColumns r.tableau) 1) :=
      if_pos (by simpa using (mem_constraintRows.1 hrow).2)
    rw [hwrite, h.setEntry hrow]
    rfl
  · rfl

theorem addArtificials_eq (h : r.Fits) : addArtificials r = some r.addArtificials := by
  have hfold : (List.range' 1 r.basis.length).foldlM addArtificial r =
      some ((List.range' 1 r.basis.length).foldl Run.addArtificial r) := by
    refine foldlM_eq (I := fun s : Run τ Rat => s.Fits ∧ nrRows s.tableau = nrRows r.tableau) _ ?_ _
      ⟨h, rfl⟩
    rintro s ⟨hs, hrows⟩ row hrow
    have hmem : row ∈ constraintRows s.tableau := by
      have hlength := h.length
      rw [List.mem_range'_1] at hrow
      rw [mem_constraintRows]
      omega
    refine ⟨addArtificial_eq hs hmem, ?_⟩
    unfold Run.addArtificial
    split
    · exact ⟨hs.exchanged (by simp) (by simp), .trans (by simp) hrows⟩
    · exact ⟨hs, hrows⟩
  rw [addArtificials, hfold, Run.addArtificials]
  dsimp only [Option.bind_eq_bind, Option.bind_some]
  split <;> rfl

theorem chooseBasis_eq (h : r.Fits) : chooseBasis r = some r.chooseBasis := by
  have hsingles := (Run.moves_enterSingles r).fits h
  have hothers := (Run.moves_enterOthers r.enterSingles).fits hsingles
  rw [chooseBasis, enterSingles_eq h]
  dsimp only [Option.bind_eq_bind, Option.bind_some]
  rw [enterOthers_eq hsingles]
  dsimp only [Option.bind_eq_bind, Option.bind_some]
  rw [addArtificials_eq hothers]
  rfl

end Checked

/-! ## The start of a run -/

section Start

variable [LawfulTableau τ]

theorem Board.fits_ofStandardForm (p : StandardForm Rat n) (rule : PivotRule) (threshold : Nat) :
    (Board.ofStandardForm (τ := τ) p rule threshold).Fits where
  rhs_lt := Nat.lt_succ_self n
  active := (nrColumns_ofStandardForm p rule threshold).ge
  places := (congrArg (· + 1) List.length_replicate).trans
    (nrRows_ofStandardForm p rule threshold).symm
  tracked k a hmem := by
    obtain ⟨i, hi⟩ := List.mem_iff_getElem?.1 hmem
    obtain ⟨hk, hslack⟩ := (Board.slackColumns_spec p).2 i k a hi
    exact ⟨hk.trans (Nat.lt_succ_self n), hslack.ne_zero⟩

/-- Preparation tracks every dual value by a column that it doesn't count as artificial. -/
theorem Run.fits_prepare {r : Run τ Rat} (h : r.Fits)
    (hlength : r.dualColumns.length + 1 = nrRows r.tableau) : r.prepare.Fits := by
  obtain ⟨hrows, hcolumns⟩ := shape_nonnegative r.toBoard
  have hadds := adds_addDualColumns (sign r.toBoard) r.dualColumns 1 (nonnegative r.toBoard)
    (by omega)
  change Board.Fits { r.toBoard with
    tableau := (addDualColumns (sign r.toBoard) 1 (nonnegative r.toBoard) r.dualColumns).1
    dualColumns := (addDualColumns (sign r.toBoard) 1 (nonnegative r.toBoard) r.dualColumns).2
    firstArtificial := nrColumns
      (addDualColumns (sign r.toBoard) 1 (nonnegative r.toBoard) r.dualColumns).1 }
  generalize addDualColumns (sign r.toBoard) 1 (nonnegative r.toBoard) r.dualColumns = out
    at hadds ⊢
  have hwide : r.firstArtificial ≤ nrColumns out.1 := by
    have hmore := hadds.nrColumns
    have hactive := h.active
    omega
  refine ⟨h.rhs_lt.trans_le hwide, le_rfl, h.length.trans (hadds.nrRows.trans hrows).symm,
    fun k a hmem => ?_⟩
  obtain ⟨i, hi⟩ := List.mem_iff_getElem?.1 hmem
  have hlt : i < r.dualColumns.length := hadds.length ▸ (List.getElem?_eq_some_iff.1 hi).1
  cases hfound : r.dualColumns[i] with
  | some found =>
    have hkept := hadds.kept i found (hfound ▸ List.getElem?_eq_getElem hlt)
    obtain rfl := Option.some.inj (Option.some.inj (hi.symm.trans hkept))
    obtain ⟨hk, ha⟩ := h.tracked k a (hfound ▸ List.getElem_mem hlt)
    exact ⟨hk.trans_le hwide, ha⟩
  | none =>
    obtain ⟨k', hadded, -, hk', -⟩ := hadds.added i (hfound ▸ List.getElem?_eq_getElem hlt)
    obtain ⟨rfl, rfl⟩ := Prod.mk.inj (Option.some.inj (Option.some.inj (hi.symm.trans hadded)))
    exact ⟨hk', left_ne_zero_of_mul_eq_one (sign_mul_self r.toBoard _)⟩

end Start

end LinProg
