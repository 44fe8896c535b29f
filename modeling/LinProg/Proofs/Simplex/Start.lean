import LinProg.Proofs.Simplex.Canonical
import LinProg.Proofs.Simplex.Kept

/-!
# The initial basis is sound

Preparation negates rows and adds columns behind the right hand side; the choice of a basis pivots
on positive values and adds artificial columns.  None of it changes what the tableau represents,
and in the end every row has a basic column (`Sound.chooseBasis`).
-/

namespace LinProg

open Tableau Board

variable {τ : Type} [Tableau τ Rat] {n : Nat} {p : StandardForm Rat n}

/-- A board without any basic column is sound if its tableau represents the program. -/
theorem Board.Sound.of_basic_none {b : Board τ Rat} (hn : b.nrVariables = n)
    (hp : Represents p b.tableau) (hfirst : n < b.firstArtificial)
    (hlength : b.basis.length + 1 = nrRows b.tableau) (hnone : ∀ row, b.basic row = none) :
    Sound p b where
  nrVariables := hn
  represents := hp
  firstArtificial := hfirst
  length := hlength
  unit row _ c hc := by simp [hnone] at hc
  kind row _ c hc := by simp [hnone] at hc

omit [Tableau τ Rat] in
@[simp] theorem Run.toBoard_note (r : Run τ Rat) (event : Event) :
    (r.note event).toBoard = r.toBoard := rfl

/-! ## Choice of rows -/

theorem Run.get_pos_of_singlePositiveRow {t : τ} {column row : Nat}
    (h : Run.singlePositiveRow t column = some row) :
    row ∈ constraintRows t ∧ 0 < get t row column := by
  unfold Run.singlePositiveRow at h
  split at h
  next r hfilter =>
    obtain rfl := Option.some.inj h
    have : r ∈ [r] := List.mem_singleton_self r
    rw [← hfilter, List.mem_filter] at this
    simpa [isPositive] using this
  next => cases h

theorem Run.eq_of_singlePositiveRow {t : τ} {column row i : Nat}
    (h : singlePositiveRow t column = some row) (hi : i ∈ constraintRows t)
    (hpos : 0 < get t i column) : i = row := by
  unfold singlePositiveRow at h
  split at h
  next r hfilter =>
    obtain rfl := Option.some.inj h
    have hmem : i ∈ (constraintRows t).filter fun row => isPositive t row column :=
      List.mem_filter.2 ⟨hi, by simpa [isPositive] using hpos⟩
    rw [hfilter] at hmem
    exact List.mem_singleton.1 hmem
  next => cases h

/-- The row of the ratio test so far, and its ratio, belong to a positive value. -/
def Run.IsCandidate (b : Board τ Rat) (column : Nat) (best : Option (Nat × Rat)) : Prop :=
  ∀ row ratio, best = some (row, ratio) →
    row ∈ constraintRows b.tableau ∧ 0 < get b.tableau row column

theorem Run.isCandidate_betterRow {b : Board τ Rat} {column row : Nat}
    {best : Option (Nat × Rat)} (hrow : row ∈ constraintRows b.tableau)
    (h : Run.IsCandidate b column best) :
    Run.IsCandidate b column (Run.betterRow b column best row) := by
  intro r ratio hr
  unfold Run.betterRow at hr
  split at hr
  next hpos =>
    have hpos : 0 < get b.tableau row column := by simpa [isPositive] using hpos
    split at hr
    next =>
      simp only [Option.some.injEq, Prod.mk.injEq] at hr
      exact hr.1 ▸ ⟨hrow, hpos⟩
    next =>
      dsimp only at hr
      split at hr
      · simp only [Option.some.injEq, Prod.mk.injEq] at hr
        exact hr.1 ▸ ⟨hrow, hpos⟩
      · exact h r ratio hr
  next => exact h r ratio hr

theorem Run.get_pos_of_ratioRow {b : Board τ Rat} {column row : Nat}
    (h : Run.ratioRow b column = some row) :
    row ∈ constraintRows b.tableau ∧ 0 < get b.tableau row column := by
  obtain ⟨⟨r, ratio⟩, hfold, rfl⟩ := Option.map_eq_some_iff.1 h
  have : Run.IsCandidate b column
      ((constraintRows b.tableau).foldl (Run.betterRow b column) none) :=
    List.foldlRecOn _ _ (fun _ _ h => by cases h) fun _ h _ hrow => isCandidate_betterRow hrow h
  exact this r ratio hfold

/-- The row of the ratio test so far has the smallest ratio among those with a positive value. -/
def Run.IsSmallest (b : Board τ Rat) (column : Nat) (rows : List Nat) :
    Option (Nat × Rat) → Prop
  | none => ∀ i ∈ rows, get b.tableau i column ≤ 0
  | some (row, ratio) => ratio = get b.tableau row b.rhs / get b.tableau row column ∧
      ∀ i ∈ rows, 0 < get b.tableau i column →
        ratio ≤ get b.tableau i b.rhs / get b.tableau i column

theorem Run.IsSmallest.betterRow {b : Board τ Rat} {column : Nat} {rows : List Nat}
    {best : Option (Nat × Rat)} (h : IsSmallest b column rows best) (row : Nat) :
    IsSmallest b column (rows ++ [row]) (Run.betterRow b column best row) := by
  have hmem {P : Nat → Prop} (hP : ∀ i ∈ rows, P i) (hrow : P row) : ∀ i ∈ rows ++ [row], P i := by
    rw [List.forall_mem_append, List.forall_mem_singleton]
    exact ⟨hP, hrow⟩
  unfold Run.betterRow
  split
  next hpos =>
    have hpos : 0 < get b.tableau row column := by simpa [isPositive] using hpos
    dsimp only
    split
    next => exact ⟨rfl, hmem (fun i hi hi' => absurd hi' (h i hi).not_gt) fun _ => le_rfl⟩
    next bestRow bestRatio =>
      obtain ⟨hratio, hle⟩ := h
      split
      next hless =>
        have hle' : get b.tableau row b.rhs / get b.tableau row column ≤ bestRatio := by
          simp only [Scalar.less_rat, Scalar.same_rat, Bool.or_eq_true, Bool.and_eq_true,
            decide_eq_true_eq] at hless
          exact hless.elim le_of_lt fun heq => heq.1.le
        exact ⟨rfl, hmem (fun i hi hi' => hle'.trans (hle i hi hi')) fun _ => le_rfl⟩
      next hless =>
        have hle' : bestRatio ≤ get b.tableau row b.rhs / get b.tableau row column := by
          simp only [Scalar.less_rat, Bool.or_eq_true, decide_eq_true_eq, not_or, not_lt] at hless
          exact hless.1
        exact ⟨hratio, hmem hle fun _ => hle'⟩
  next hpos =>
    have hpos : get b.tableau row column ≤ 0 := by simpa [isPositive] using hpos
    cases best with
    | none => exact hmem h hpos
    | some best => exact ⟨h.1, hmem h.2 fun hpos' => absurd hpos' hpos.not_gt⟩

theorem Run.isSmallest_foldl (b : Board τ Rat) (column : Nat) (rows : List Nat) :
    IsSmallest b column rows (rows.foldl (betterRow b column) none) := by
  induction rows using List.reverseRecOn with
  | nil => simp [IsSmallest]
  | append_singleton rows row ih =>
    rw [List.foldl_append, List.foldl_cons, List.foldl_nil]
    exact ih.betterRow row

/-- No other row has a smaller ratio than the one that the ratio test picks. -/
theorem Run.ratio_le_of_ratioRow {b : Board τ Rat} {column row i : Nat}
    (h : ratioRow b column = some row) (hi : i ∈ constraintRows b.tableau)
    (hpos : 0 < get b.tableau i column) :
    get b.tableau row b.rhs / get b.tableau row column ≤
      get b.tableau i b.rhs / get b.tableau i column := by
  obtain ⟨⟨r, ratio⟩, hfold, rfl⟩ := Option.map_eq_some_iff.1 h
  have hsmallest := isSmallest_foldl b column (constraintRows b.tableau)
  rw [hfold] at hsmallest
  obtain ⟨rfl, hle⟩ := hsmallest
  exact hle i hi hpos

theorem Run.get_nonpos_of_ratioRow_none {b : Board τ Rat} {column : Nat}
    (h : Run.ratioRow b column = none) {row : Nat} (hrow : row ∈ constraintRows b.tableau) :
    get b.tableau row column ≤ 0 := by
  have hsmallest := isSmallest_foldl b column (constraintRows b.tableau)
  rw [Option.map_eq_none_iff.1 h] at hsmallest
  exact hsmallest row hrow

variable [LawfulTableau τ]

/-! ## Preparation -/

theorem Tableau.Represents.nonnegative {b : Board τ Rat} (h : Represents p b.tableau) :
    Represents p (Run.nonnegative b) ∧ nrRows (Run.nonnegative b) = nrRows b.tableau := by
  refine List.foldlRecOn (motive := fun t => Represents p t ∧ nrRows t = nrRows b.tableau) _ _
    ⟨h, rfl⟩ ?_
  rintro t ⟨ht, hrows⟩ row hrow
  split
  · exact ⟨ht, hrows⟩
  · exact ⟨ht.negateRow (mem_constraintRows.1 hrow).1, by simpa using hrows⟩

/-- A value written behind the right hand side doesn't count. -/
theorem Tableau.Represents.setColumn {t : τ} (h : Represents p t) (row : Nat) (x : Rat) :
    Represents p (set (addColumn t) row (nrColumns t) x) :=
  h.congr (by simp) (by simpa using h.width.trans (Nat.lt_succ_self _)) fun i j hj =>
    get_set_addColumn_of_lt t row x i (hj.trans_lt h.width)

theorem Tableau.Represents.addDualColumns (sign : Nat → Rat) :
    ∀ (columns : List (Option (Nat × Rat))) (row : Nat) (t : τ), Represents p t →
      Represents p (Run.addDualColumns sign row t columns).1 ∧
        nrRows (Run.addDualColumns sign row t columns).1 = nrRows t
  | [], _, _, h => ⟨h, rfl⟩
  | some _ :: rest, row, t, h => addDualColumns sign rest (row + 1) t h
  | none :: rest, row, t, h => by
    have ih := addDualColumns sign rest (row + 1) _ (h.setColumn row 1)
    exact ⟨ih.1, ih.2.trans (by simp)⟩

theorem Board.Sound.prepare {r : Run τ Rat} (h : Sound p r.toBoard)
    (hnone : ∀ row, r.basic row = none) : Sound p r.prepare.toBoard := by
  have hneg := h.represents.nonnegative
  have hdual := hneg.1.addDualColumns
    (fun row => if Run.keepsSign r.toBoard row then (1 : Rat) else -1) r.dualColumns 1
  refine .of_basic_none h.nrVariables hdual.1 hdual.1.width ?_ hnone
  exact h.length.trans (hdual.2.trans hneg.2).symm

/-! ## Choice of a basis -/

/-- A sound board on its way to a basis: every basic column can still be read. -/
structure Board.Growing (p : StandardForm Rat n) (b : Board τ Rat) : Prop where
  sound : Sound p b
  firstArtificial : b.firstArtificial ≤ nrColumns b.tableau
  readable : ∀ row ∈ constraintRows b.tableau, ∀ c, b.basic row = some c → c < nrColumns b.tableau

omit [LawfulTableau τ] in
theorem Board.Growing.exchanged {b : Board τ Rat} (h : Growing p b) {t : τ} {row c : Nat}
    (hrow : row ∈ constraintRows b.tableau) (hs : Sound p (b.exchanged t row c))
    (hrows : nrRows t = nrRows b.tableau) (hcols : nrColumns b.tableau ≤ nrColumns t)
    (hc : c < nrColumns t) : Growing p (b.exchanged t row c) := by
  refine ⟨hs, h.firstArtificial.trans hcols, fun i hi d hd => ?_⟩
  change i ∈ constraintRows t at hi
  rw [constraintRows_congr hrows] at hi
  rw [h.sound.basic_exchanged t c hrow hi] at hd
  split at hd
  · exact Option.some.inj hd ▸ hc
  · exact (h.readable i hi d hd).trans_le hcols

theorem Board.Growing.enter {r : Run τ Rat} (h : Growing p r.toBoard)
    {choose : Board τ Rat → Nat → Option Nat}
    (hchoose : ∀ b column row, choose b column = some row →
      row ∈ constraintRows b.tableau ∧ 0 < get b.tableau row column)
    {column : Nat} (hc : column < n) : Growing p (Run.enter choose r column).toBoard := by
  unfold Run.enter
  split
  next row hrow =>
    obtain ⟨hmem, hpos⟩ := hchoose _ _ _ hrow
    split
    · exact h.exchanged hmem (h.sound.pivot hmem hc hpos.ne') (by simp) (by simp)
        (by simpa using hc.trans h.sound.represents.width)
    · exact h
  next => exact h

theorem Board.Growing.enterSingles {r : Run τ Rat} (h : Growing p r.toBoard) :
    Growing p r.enterSingles.toBoard := by
  refine List.foldlRecOn (motive := fun s : Run τ Rat => Growing p s.toBoard) _ _ h
    fun s hs column hcolumn => hs.enter (fun b column row => Run.get_pos_of_singlePositiveRow) ?_
  simpa [h.sound.nrVariables] using hcolumn

theorem Board.Growing.enterOthers {r : Run τ Rat} (h : Growing p r.toBoard) :
    Growing p r.enterOthers.toBoard := by
  refine List.foldlRecOn (motive := fun s : Run τ Rat => Growing p s.toBoard) _ _ h
    fun s hs column hcolumn => hs.enter (fun b column row => Run.get_pos_of_ratioRow) ?_
  simpa [h.sound.nrVariables] using (List.mem_filter.1 hcolumn).1

theorem Board.Growing.addArtificial {r : Run τ Rat} (h : Growing p r.toBoard) {row : Nat}
    (hrow : row ∈ constraintRows r.tableau) : Growing p (r.addArtificial row).toBoard := by
  unfold Run.addArtificial
  split
  next =>
    let t := set (addColumn r.tableau) row (nrColumns r.tableau) (1 : Rat)
    have hrows : nrRows t = nrRows r.tableau := by simp [t]
    have hnew : IsUnit t (nrColumns r.tableau) row := by
      intro i _
      exact get_set_addColumn_self r.tableau row 1 i (mem_constraintRows.1 hrow).2
    have hold (d : Nat) (hd : d < nrColumns r.tableau) (k : Nat) :
        get t k d = get r.tableau k d :=
      get_set_addColumn_of_lt r.tableau row 1 k hd
    have hsound := h.sound.exchanged hrow (h.sound.represents.setColumn row 1) hrows
      (.inr h.firstArtificial) hnew fun i hi _ d hd _ =>
        ⟨h.readable i hi d hd, hold d (h.readable i hi d hd)⟩
    exact h.exchanged hrow hsound hrows (by simp) (by simp)
  next => exact h

omit [LawfulTableau τ] in
theorem Run.addArtificial_basis (r : Run τ Rat) (row : Nat) :
    (r.addArtificial row).basis =
      if (r.basic row).isNone then r.basis.set (row - 1) (some (nrColumns r.tableau))
      else r.basis := by
  unfold Run.addArtificial
  split <;> rfl

omit [LawfulTableau τ] in
/-- Adding artificial columns leaves no row that was visited without a basic column. -/
theorem Run.isSome_foldl_addArtificial (rows : List Nat) (r : Run τ Rat) {row : Nat}
    (h0 : 0 < row) (hrow : row - 1 < r.basis.length) (hrows : ∀ i ∈ rows, 0 < i)
    (h : (r.basic row).isSome = true ∨ row ∈ rows) :
    ((rows.foldl Run.addArtificial r).basic row).isSome = true := by
  induction rows generalizing r with
  | nil => simpa using h
  | cons i rest ih =>
    have hlength : row - 1 < (r.addArtificial i).basis.length := by
      rw [addArtificial_basis]
      split <;> simpa using hrow
    apply ih _ hlength (fun k hk => hrows k (List.mem_cons_of_mem _ hk))
    have hi : 0 < i := hrows i List.mem_cons_self
    by_cases hir : row = i
    · subst hir
      left
      by_cases hnone : (r.basic row).isNone
      · rw [Board.basic, addArtificial_basis, if_pos hnone]
        simp [hrow]
      · rw [Board.basic, addArtificial_basis, if_neg hnone]
        simpa [Board.basic, Option.isSome_iff_ne_none] using hnone
    · refine h.imp (fun hsome => ?_) fun hmem => (List.mem_cons.1 hmem).resolve_left hir
      by_cases hnone : (r.basic i).isNone
      · rw [Board.basic, addArtificial_basis, if_pos hnone]
        simpa [Board.basic, List.getElem?_set, show i - 1 ≠ row - 1 by omega] using hsome
      · rw [Board.basic, addArtificial_basis, if_neg hnone]
        exact hsome

theorem Board.Growing.addArtificials {r : Run τ Rat} (h : Growing p r.toBoard) :
    Growing p r.addArtificials.toBoard ∧ r.addArtificials.IsFull := by
  have hlength := h.sound.length
  let s := (List.range' 1 r.basis.length).foldl Run.addArtificial r
  have hs : Growing p s.toBoard ∧ nrRows s.tableau = nrRows r.tableau := by
    refine List.foldlRecOn
      (motive := fun s : Run τ Rat => Growing p s.toBoard ∧ nrRows s.tableau = nrRows r.tableau)
      _ _ ⟨h, rfl⟩ ?_
    rintro s ⟨hs, hrows⟩ row hrow
    have hmem : row ∈ constraintRows s.tableau := by
      simp only [List.mem_range'_1] at hrow
      simp only [mem_constraintRows]
      omega
    refine ⟨hs.addArtificial hmem, ?_⟩
    unfold Run.addArtificial
    split
    · simpa using hrows
    · exact hrows
  have hfull : s.IsFull := by
    intro row hrow
    rw [constraintRows_congr hs.2, mem_constraintRows] at hrow
    refine Option.isSome_iff_exists.1 (Run.isSome_foldl_addArtificial _ _ hrow.1 (by omega) ?_ ?_)
    · simp only [List.mem_range'_1]
      omega
    · simp only [List.mem_range'_1]
      omega
  unfold Run.addArtificials
  dsimp only
  split
  · exact ⟨hs.1, hfull⟩
  · exact ⟨hs.1, hfull⟩

/-! ## The start of a run -/

omit [Tableau τ Rat] [LawfulTableau τ] in
theorem Run.state_foldl {ι : Type} (f : Run τ Rat → ι → Run τ Rat)
    (hf : ∀ r i, (f r i).state = r.state) (l : List ι) (r : Run τ Rat) :
    (l.foldl f r).state = r.state :=
  List.foldlRecOn (motive := fun s : Run τ Rat => s.state = r.state) _ _ rfl
    fun s hs i _ => (hf s i).trans hs

omit [LawfulTableau τ] in
theorem Run.state_chooseBasis (r : Run τ Rat) : r.chooseBasis.state = r.state := by
  have henter (choose : Board τ Rat → Nat → Option Nat) (s : Run τ Rat) (c : Nat) :
      (Run.enter choose s c).state = s.state := by
    unfold Run.enter
    split
    · split <;> rfl
    · rfl
  have hadd (s : Run τ Rat) (row : Nat) : (s.addArtificial row).state = s.state := by
    unfold Run.addArtificial
    split <;> rfl
  have hadds (s : Run τ Rat) : s.addArtificials.state = s.state := by
    unfold Run.addArtificials
    dsimp only
    split <;> exact state_foldl _ hadd _ s
  calc r.chooseBasis.state = r.enterSingles.enterOthers.state := hadds _
    _ = r.enterSingles.state := state_foldl _ (henter _) _ _
    _ = r.state := state_foldl _ (henter _) _ _

theorem Run.chooseBasis_spec {r : Run τ Rat} (h : Growing p r.toBoard) :
    Growing p r.chooseBasis.toBoard ∧ r.chooseBasis.IsFull := by
  rw [Run.chooseBasis, Run.toBoard_note]
  exact h.enterSingles.enterOthers.addArtificials

theorem Run.begin_spec (p : StandardForm Rat n) (rule : PivotRule) (threshold : Nat) :
    Growing p (Run.begin (Board.ofStandardForm (τ := τ) p rule threshold)).toBoard ∧
      (Run.begin (Board.ofStandardForm (τ := τ) p rule threshold)).IsFull ∧
      (Run.begin (Board.ofStandardForm (τ := τ) p rule threshold)).state = .solving := by
  let r : Run τ Rat :=
    { Run.start (Board.ofStandardForm (τ := τ) p rule threshold) with state := .solving }
  have hnone (row : Nat) : r.basic row = none := by
    simp only [Board.basic, r, Run.start, Board.ofStandardForm, List.getD_eq_getElem?_getD,
      List.getElem?_replicate]
    split <;> rfl
  have hr : Sound p r.toBoard := by
    refine .of_basic_none rfl (represents_ofStandardForm p rule threshold) (Nat.lt_succ_self n)
      ?_ hnone
    simp [r, Run.start, Board.ofStandardForm, ShapedTableau.nrRows_ofRows]
  have hprepared : Growing p r.prepare.toBoard := by
    refine ⟨hr.prepare hnone, le_rfl, fun row _ c hc => ?_⟩
    change r.basic row = some c at hc
    simp [hnone] at hc
  have hbasis := Run.chooseBasis_spec hprepared
  exact ⟨hbasis.1, hbasis.2, Run.state_chooseBasis _⟩

end LinProg
