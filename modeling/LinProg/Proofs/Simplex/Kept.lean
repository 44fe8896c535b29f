import LinProg.Proofs.Simplex.Guard
import LinProg.Proofs.Tableau.Shape

/-!
# What work keeps

Facts on runs that hold on any storage, whatever its numbers are.  `Keeps` is what no work but
counted pivots changes; such a pivot, which the guard counts on an index, is one more iteration.
Driving artificial columns out is work of this kind, and leaves fewer of them if it asks for another
round.
-/

namespace LinProg

open Tableau

variable {τ α : Type} [Tableau τ α]

/-! ## What holds throughout -/

/-- A board that is being solved: `n` variables, at most `m` rows, each with a place in the basis,
and a guard of positive threshold `t`. -/
structure Board.Shaped (n m t : Nat) (b : Board τ α) : Prop where
  nrVariables : b.nrVariables = n
  firstArtificial : n < b.firstArtificial
  length : b.basis.length + 1 = nrRows b.tableau
  rows : b.basis.length ≤ m
  nrWatched : b.guard.nrWatched = n
  threshold : b.guard.threshold = t
  threshold_pos : 0 < t
  started : b.state ≠ .zero

/-- The guard did not trip, and every iteration so far is one that it counted on the indices, but
for those made before. -/
structure Board.Paced (indices : Finset Nat) (before : Nat) (b : Board τ α) : Prop where
  idle : b.guard.isTripped = false
  tallies : b.guard.Tallies indices
  iterations : b.iterations = before + b.guard.total indices

def Board.nrArtificial (b : Board τ α) : Nat := b.basis.countP b.isArtificial

/-- What no work but counted pivots changes; rows may go. -/
structure Board.Keeps (b c : Board τ α) : Prop where
  nrVariables : c.nrVariables = b.nrVariables
  firstArtificial : c.firstArtificial = b.firstArtificial
  guard : c.guard = b.guard
  iterations : c.iterations = b.iterations
  state : c.state = b.state
  length : b.basis.length + 1 = nrRows b.tableau → c.basis.length + 1 = nrRows c.tableau
  rows : c.basis.length ≤ b.basis.length

namespace Board

variable {n m t before : Nat} {indices : Finset Nat} {b c d : Board τ α}

theorem Keeps.refl (b : Board τ α) : Keeps b b := ⟨rfl, rfl, rfl, rfl, rfl, id, Nat.le_refl _⟩

theorem Keeps.trans (h : Keeps b c) (h' : Keeps c d) : Keeps b d where
  nrVariables := h'.nrVariables.trans h.nrVariables
  firstArtificial := h'.firstArtificial.trans h.firstArtificial
  guard := h'.guard.trans h.guard
  iterations := h'.iterations.trans h.iterations
  state := h'.state.trans h.state
  length := h'.length ∘ h.length
  rows := h'.rows.trans h.rows

theorem Shaped.keeps (hb : Shaped n m t b) (h : Keeps b c) : Shaped n m t c where
  nrVariables := h.nrVariables.trans hb.nrVariables
  firstArtificial := h.firstArtificial ▸ hb.firstArtificial
  length := h.length hb.length
  rows := h.rows.trans hb.rows
  nrWatched := h.guard ▸ hb.nrWatched
  threshold := h.guard ▸ hb.threshold
  threshold_pos := hb.threshold_pos
  started := h.state ▸ hb.started

/-- A guard of the same kind and another state make no difference. -/
theorem Shaped.stopped (h : Shaped n m t b) (state : State) (hstate : state ≠ .zero)
    (guard : CyclingGuard) (hwatched : guard.nrWatched = b.guard.nrWatched)
    (hthreshold : guard.threshold = b.guard.threshold) :
    Shaped n m t { b with state := state, guard := guard } :=
  ⟨h.nrVariables, h.firstArtificial, h.length, h.rows, hwatched.trans h.nrWatched,
    hthreshold.trans h.threshold, h.threshold_pos, hstate⟩

theorem Paced.keeps (hb : Paced indices before b) (h : Keeps b c) : Paced indices before c where
  idle := h.guard ▸ hb.idle
  tallies := h.guard ▸ hb.tallies
  iterations := by rw [h.iterations, h.guard, hb.iterations]

theorem Paced.iterations_le (hp : Paced indices before b) (hs : Shaped n m t b) :
    b.iterations ≤ before + CyclingGuard.limit n t indices.card := by
  have h := hp.tallies.total_le hp.idle
  rw [hs.nrWatched, hs.threshold] at h
  exact hp.iterations ▸ Nat.add_le_add_left h before

omit [Tableau τ α] in
theorem lt_length_of_isArtificial {row : Nat} (h : b.isArtificial (b.basic row) = true) :
    row - 1 < b.basis.length := by
  by_contra hrow
  rw [basic, List.getD_eq_getElem?_getD, List.getElem?_eq_none (Nat.not_lt.1 hrow)] at h
  cases h

end Board

namespace Run

open Board

variable {n m t before : Nat} {indices : Finset Nat}

theorem keeps_foldl {β : Type} {f : Run τ α → β → Run τ α}
    (hf : ∀ r x, Keeps r.toBoard (f r x).toBoard) (l : List β) (r : Run τ α) :
    Keeps r.toBoard (l.foldl f r).toBoard :=
  List.foldlRecOn (motive := fun s : Run τ α => Keeps r.toBoard s.toBoard) l f (.refl _)
    fun s hs x _ => hs.trans (hf s x)

theorem nrArtificial_pivot_le (r : Run τ α) (phase : Phase) {row column : Nat}
    (h : column < r.firstArtificial) :
    (r.pivot phase row column).nrArtificial ≤ r.nrArtificial := by
  have hnot : r.isArtificial (some column) = false := by simp [isArtificial, h]
  show (r.basis.set (row - 1) (some column)).countP r.isArtificial ≤ r.basis.countP r.isArtificial
  by_cases hrow : row - 1 < r.basis.length
  · rw [List.countP_set hrow, hnot]
    simp
  · rw [List.set_eq_of_length_le (Nat.not_lt.1 hrow)]

theorem nrArtificial_pivot_lt (r : Run τ α) (phase : Phase) {row column : Nat}
    (h : column < r.firstArtificial) (ha : r.isArtificial (r.basic row) = true) :
    (r.pivot phase row column).nrArtificial < r.nrArtificial := by
  have hnot : r.isArtificial (some column) = false := by simp [isArtificial, h]
  have hrow := lt_length_of_isArtificial ha
  have hold : r.isArtificial r.basis[row - 1] = true := by
    simpa [basic, List.getD_eq_getElem?_getD, hrow] using ha
  have hpos : 0 < r.basis.countP r.isArtificial :=
    List.countP_pos_iff.2 ⟨_, List.getElem_mem hrow, hold⟩
  show (r.basis.set (row - 1) (some column)).countP r.isArtificial < r.basis.countP r.isArtificial
  rw [List.countP_set hrow, hnot, hold, if_pos rfl, if_neg Bool.false_ne_true]
  omega

/-- A pivot that the guard counts on an index is one more iteration. -/
theorem paced_counted {r : Run τ α} (h : Paced indices before r.toBoard) {index : Nat}
    (hindex : index ∈ indices) (hidle : (r.guard.record index).isTripped = false) (phase : Phase)
    (row column : Nat) :
    Paced indices before ({ r with
      guard := r.guard.record index
      iterations := r.iterations + 1 }.pivot phase row column).toBoard := by
  refine ⟨hidle, h.tallies.record hindex, ?_⟩
  show r.iterations + 1 = before + (r.guard.record index).total indices
  rw [CyclingGuard.total_record hindex, h.iterations, Nat.add_assoc]

variable [ShapedTableau τ]

theorem keeps_pivot (r : Run τ α) (phase : Phase) (row column : Nat) :
    Keeps r.toBoard (r.pivot phase row column).toBoard := by
  refine ⟨rfl, rfl, rfl, rfl, rfl, fun h => ?_, Nat.le_of_eq (List.length_set ..)⟩
  show (r.basis.set (row - 1) (some column)).length + 1 =
    nrRows (Tableau.pivot r.tableau row column)
  rw [List.length_set, ShapedTableau.nrRows_pivot, h]

theorem shaped_counted {r : Run τ α} (h : Shaped n m t r.toBoard) (index : Nat) (phase : Phase)
    (row column : Nat) :
    Shaped n m t ({ r with
      guard := r.guard.record index
      iterations := r.iterations + 1 }.pivot phase row column).toBoard :=
  Shaped.keeps (b := { r.toBoard with
      guard := r.guard.record index
      iterations := r.iterations + 1 })
    ⟨h.nrVariables, h.firstArtificial, h.length, h.rows, h.nrWatched, h.threshold,
      h.threshold_pos, h.started⟩
    (keeps_pivot { r with guard := r.guard.record index, iterations := r.iterations + 1 }
      phase row column)

/-! ## The start -/

theorem keeps_enter (choose : Board τ α → Nat → Option Nat) (r : Run τ α) (column : Nat) :
    Keeps r.toBoard (enter choose r column).toBoard := by
  unfold enter
  split
  · split
    · exact keeps_pivot ..
    · exact .refl _
  · exact .refl _

variable [Scalar α]

theorem keeps_addArtificial (r : Run τ α) (row : Nat) :
    Keeps r.toBoard (addArtificial r row).toBoard := by
  unfold addArtificial
  split
  · refine ⟨rfl, rfl, rfl, rfl, rfl, fun h => ?_, Nat.le_of_eq (List.length_set ..)⟩
    dsimp only
    rw [List.length_set, ShapedTableau.nrRows_set, ShapedTableau.nrRows_addColumn, h]
  · exact .refl _

theorem keeps_chooseBasis (r : Run τ α) : Keeps r.toBoard r.chooseBasis.toBoard := by
  have hsingles : Keeps r.toBoard r.enterSingles.toBoard := keeps_foldl (keeps_enter _) _ r
  have hothers : Keeps r.enterSingles.toBoard r.enterSingles.enterOthers.toBoard :=
    keeps_foldl (keeps_enter _) _ _
  have hartificials (s : Run τ α) : Keeps s.toBoard s.addArtificials.toBoard := by
    have h := keeps_foldl keeps_addArtificial (List.range' 1 s.basis.length) s
    unfold addArtificials
    dsimp only
    split
    · exact h
    · exact h
  exact (hsingles.trans hothers).trans (hartificials _)

theorem shape_nonnegative (b : Board τ α) :
    nrRows (nonnegative b) = nrRows b.tableau ∧
      nrColumns (nonnegative b) = nrColumns b.tableau := by
  refine List.foldlRecOn (motive := fun t =>
    nrRows t = nrRows b.tableau ∧ nrColumns t = nrColumns b.tableau) _ _ ⟨rfl, rfl⟩ ?_
  rintro t ⟨hrows, hcolumns⟩ row -
  split
  · exact ⟨hrows, hcolumns⟩
  · exact ⟨(ShapedTableau.nrRows_negateRow t row).trans hrows,
      (ShapedTableau.nrColumns_negateRow t row).trans hcolumns⟩

theorem shape_addDualColumns (sign : Nat → α) (dualColumns : List (Option (Nat × α))) :
    ∀ (row : Nat) (t : τ), nrRows (addDualColumns sign row t dualColumns).1 = nrRows t ∧
      nrColumns t ≤ nrColumns (addDualColumns sign row t dualColumns).1 := by
  induction dualColumns with
  | nil => exact fun _ _ => ⟨rfl, Nat.le_refl _⟩
  | cons found rest ih =>
    intro row t
    cases found with
    | some found => exact ih (row + 1) t
    | none =>
      obtain ⟨hrows, hcolumns⟩ := ih (row + 1) (set (addColumn t) row (nrColumns t) 1)
      rw [ShapedTableau.nrRows_set, ShapedTableau.nrRows_addColumn] at hrows
      rw [ShapedTableau.nrColumns_set, ShapedTableau.nrColumns_addColumn] at hcolumns
      exact ⟨hrows, (Nat.le_succ _).trans hcolumns⟩

/-- A run with its initial basis, when the first loop starts. -/
def begin (b : Board τ α) : Run τ α :=
  ({ Run.start b with state := .solving } : Run τ α).prepare.chooseBasis

theorem shaped_begin (p : StandardForm α n) (rule : PivotRule) (threshold : Nat) :
    let r : Run τ α := begin (.ofStandardForm p rule threshold)
    Shaped n p.equations.length (max 1 threshold) r.toBoard ∧
      Paced (Finset.range n) 0 r.toBoard := by
  rw [Nat.max_comm]
  let r : Run τ α := { Run.start (.ofStandardForm p rule threshold) with state := .solving }
  obtain ⟨hrows, hcolumns⟩ := shape_nonnegative r.toBoard
  obtain ⟨hrows', hcolumns'⟩ := shape_addDualColumns
    (fun row => if keepsSign r.toBoard row then (1 : α) else -1) r.dualColumns 1
    (nonnegative r.toBoard)
  have hofRows : nrRows r.tableau = p.equations.length + 1 := by
    refine (ShapedTableau.nrRows_ofRows _).trans ?_
    rw [List.length_cons, List.length_map]
  have hwidth : nrColumns r.tableau = n + 1 := by
    refine (ShapedTableau.nrColumns_ofRows _).trans ?_
    simp
  have hshaped : Shaped n p.equations.length (max threshold 1) r.prepare.toBoard := by
    refine ⟨rfl, ?_, ?_, Nat.le_of_eq (List.length_replicate ..), rfl, rfl, Nat.le_max_right ..,
      State.noConfusion⟩
    · show n < nrColumns (addDualColumns _ 1 (nonnegative r.toBoard) r.dualColumns).1
      omega
    · show (List.replicate p.equations.length none).length + 1 =
        nrRows (addDualColumns _ 1 (nonnegative r.toBoard) r.dualColumns).1
      rw [List.length_replicate, hrows', hrows, hofRows]
  refine ⟨hshaped.keeps (keeps_chooseBasis _), Paced.keeps ?_ (keeps_chooseBasis _)⟩
  have hblank := CyclingGuard.blank_new n threshold
  refine ⟨hblank.isTripped, hblank.tallies _, ?_⟩
  show 0 = 0 + (CyclingGuard.new n threshold).total (Finset.range n)
  rw [hblank.total]

/-! ## Driving artificial columns out -/

structure Exchanges (r : Run τ α) (out : Run τ α × Bool) : Prop where
  keeps : Keeps r.toBoard out.1.toBoard
  le : out.1.nrArtificial ≤ r.nrArtificial
  less : out.2 = true → out.1.nrArtificial < r.nrArtificial

theorem Exchanges.exchange {r : Run τ α} {out : Run τ α × Bool} (h : r.Exchanges out)
    (hr : Shaped n m t r.toBoard) (row : Nat) : r.Exchanges (Run.exchange out row) := by
  obtain ⟨s, pivoted⟩ := out
  unfold Run.exchange
  dsimp only
  split
  next ha =>
    split
    next column hcolumn =>
      have hs : Shaped n m t s.toBoard := hr.keeps h.keeps
      have hlt : column < s.firstArtificial := by
        have := List.mem_range.1 (List.mem_of_find?_eq_some hcolumn)
        have := hs.firstArtificial
        have := hs.nrVariables
        omega
      have hless := (nrArtificial_pivot_lt s .exchange hlt ha).trans_le h.le
      exact ⟨h.keeps.trans (keeps_pivot ..), hless.le, fun _ => hless⟩
    next => exact h
  next => exact h

theorem exchanges_foldl {r : Run τ α} (hr : Shaped n m t r.toBoard) (rows : List Nat) :
    r.Exchanges (rows.foldl Run.exchange (r, false)) :=
  List.foldlRecOn (motive := fun out => r.Exchanges out) rows _
    ⟨.refl _, Nat.le_refl _, fun h => (by cases h)⟩ fun _ h row _ => h.exchange hr row

theorem keeps_removeRedundant (count row : Nat) (r : Run τ α) (hrow : 0 < row) :
    Keeps r.toBoard (removeRedundant count row r).toBoard := by
  induction count generalizing row r with
  | zero => exact .refl _
  | succ count ih =>
    unfold removeRedundant
    dsimp only
    split
    next hred =>
      have hplace := lt_length_of_isArtificial (Bool.and_eq_true_iff.1 hred).1
      refine Keeps.trans ?_ (ih row _ hrow)
      refine ⟨rfl, rfl, rfl, rfl, rfl, fun h => ?_, ?_⟩
      · show (r.basis.eraseIdx (row - 1)).length + 1 = nrRows (removeRow r.tableau row)
        rw [List.length_eraseIdx_of_lt hplace, ShapedTableau.nrRows_removeRow _ _ (by omega)]
        omega
      · exact List.length_eraseIdx_le ..
    next => exact ih (row + 1) r (Nat.succ_pos row)

theorem exchanges_driveOut {r : Run τ α} (hr : Shaped n m t r.toBoard) :
    Keeps r.toBoard r.driveOut.1.toBoard ∧
      (r.driveOut.2 = true → r.driveOut.1.nrArtificial < r.nrArtificial) := by
  have hex := exchanges_foldl hr (constraintRows r.tableau)
  have htruncate (s : Run τ α) : Keeps s.toBoard
      ({ s with tableau := truncateColumns s.tableau s.firstArtificial } : Run τ α).toBoard :=
    ⟨rfl, rfl, rfl, rfl, rfl, fun h =>
      h.trans (ShapedTableau.nrRows_truncateColumns ..).symm, Nat.le_refl _⟩
  unfold driveOut
  generalize (constraintRows r.tableau).foldl Run.exchange (r, false) = out at hex ⊢
  obtain ⟨s, pivoted⟩ := out
  cases pivoted with
  | true => exact ⟨hex.keeps.trans (htruncate s), fun _ => hex.less rfl⟩
  | false =>
    have hremove := keeps_removeRedundant (nrRows s.tableau - 1) 1 s Nat.one_pos
    exact ⟨(hex.keeps.trans hremove).trans (htruncate _), fun h => (by cases h)⟩

end Run

end LinProg
