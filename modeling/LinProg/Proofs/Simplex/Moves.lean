import LinProg.Proofs.Simplex.Outcome
import Mathlib.Logic.Relation

/-!
# What runs are made of

`Move` lists everything that is done to a run, by the phase it is done in, and `moves_solve` says
that solving a program does nothing else.  What every move keeps then holds at each moment of a run:
a moment is an end `e :: earlier` of the history, with the board that the run went on with after
`e` (`Moves.moments`).  Each pivot was made on the board of the moment before it (`Traced`).
-/

namespace LinProg

open Tableau Board

variable {τ : Type} [Tableau τ Rat] {n : Nat} {p : StandardForm Rat n}

/-! ## Moves -/

/-- What a phase goes by when it pivots on a row and a column. -/
inductive Run.Picks (b : Board τ Rat) (row c : Nat) : Phase → Prop
  | single (hnone : b.basic row = none) (h : singlePositiveRow b.tableau c = some row) :
      Picks b row c .start
  | ratio (hnone : b.basic row = none) (h : ratioRow b c = some row) : Picks b row c .start
  | profit (hselect : b.rule.select b.tableau b.nrVariables = some c)
      (h : ratioRow b c = some row) : Picks b row c .primal
  | exchange (ha : b.isArtificial (b.basic row) = true) (h : exchangeColumn b row = some c) :
      Picks b row c .exchange
  | repair (hneg : get b.tableau row b.rhs < 0) (h : repairColumn b row = some c) :
      Picks b row c .dual

instance (event : Event) (phase : Phase) (row c : Nat) :
    Decidable (event = .pivoted phase row c) :=
  match event with
  | .pivoted phase' row' c' =>
    decidable_of_iff (phase' = phase ∧ row' = row ∧ c' = c) (by rw [Event.pivoted.injEq])
  | .prepared | .artificialsAdded _ | .basisFound | .unboundedColumn _ | .columnCycled _
  | .rowCycled _ | .rowRemoved _ | .artificialsDropped | .rowInfeasible _ _ _ | .finished =>
    isFalse nofun

instance (event : Event) (row : Nat) : Decidable (event = .rowRemoved row) :=
  match event with
  | .rowRemoved row' => decidable_of_iff (row' = row) (by rw [Event.rowRemoved.injEq])
  | .prepared | .pivoted _ _ _ | .artificialsAdded _ | .basisFound | .unboundedColumn _
  | .columnCycled _ | .rowCycled _ | .artificialsDropped | .rowInfeasible _ _ _ | .finished =>
    isFalse nofun

/-- Events that change nothing of what the method works on. -/
def Event.isNote : Event → Bool
  | pivoted .. | rowRemoved _ | artificialsDropped => false
  | _ => true

/-- What is done to a run in a phase, one thing at a time. -/
inductive Run.Move : Phase → Run τ Rat → Run τ Rat → Prop
  | note {phase : Phase} {r : Run τ Rat} (event : Event) (h : event.isNote = true) :
      Move phase r (r.note event)
  /-- Guard, state and counter are kept apart from what the method works on. -/
  | mark {phase : Phase} {r : Run τ Rat} (guard : CyclingGuard) (state : State)
      (iterations : Nat) :
      Move phase r { r with guard := guard, state := state, iterations := iterations }
  | pivot {phase : Phase} {r : Run τ Rat} {row c : Nat} (hrow : row ∈ constraintRows r.tableau)
      (hc : c < r.nrVariables) (hpicks : Picks r.toBoard row c phase) :
      Move phase r (r.pivot phase row c)
  /-- Rows without basic column get artificial ones. -/
  | fill {r : Run τ Rat} (h : r.basis.countP (·.isNone) ≠ 0) : Move .start r r.addArtificials
  | remove {r : Run τ Rat} {row : Nat} (hrow : row ∈ constraintRows r.tableau)
      (hredundant : isRedundant r.toBoard row = true) :
      Move .exchange r { r.note (.rowRemoved row) with toBoard := r.removed row }
  | drop {r : Run τ Rat} : Move .exchange r
      ({ r with tableau := truncateColumns r.tableau r.firstArtificial }.note .artificialsDropped)

def Run.Moves (phases : List Phase) : Run τ Rat → Run τ Rat → Prop :=
  Relation.ReflTransGen fun r s => ∃ phase ∈ phases, Move phase r s

namespace Run.Moves

variable {phase : Phase} {phases phases' : List Phase} {r s t : Run τ Rat}

theorem refl (r : Run τ Rat) : Moves phases r r := Relation.ReflTransGen.refl

theorem trans (h : Moves phases r s) (h' : Moves phases s t) : Moves phases r t :=
  Relation.ReflTransGen.trans h h'

theorem mono (h : Moves phases r s) (hle : phases ⊆ phases') : Moves phases' r s :=
  Relation.ReflTransGen.mono (fun _ _ ⟨phase, hphase, hmove⟩ => ⟨phase, hle hphase, hmove⟩) r s h

theorem tail (h : Moves phases r s) (hphase : phase ∈ phases) (hmove : Move phase s t) :
    Moves phases r t :=
  Relation.ReflTransGen.tail h ⟨phase, hphase, hmove⟩

theorem note (h : Moves (phase :: phases) r s) (event : Event) (hevent : event.isNote = true) :
    Moves (phase :: phases) r (s.note event) :=
  h.tail List.mem_cons_self (.note event hevent)

theorem mark (h : Moves (phase :: phases) r s) (guard : CyclingGuard) (state : State)
    (iterations : Nat) :
    Moves (phase :: phases) r
      { s with guard := guard, state := state, iterations := iterations } :=
  h.tail List.mem_cons_self (.mark guard state iterations)

theorem pivot (h : Moves (phase :: phases) r s) {row c : Nat}
    (hrow : row ∈ constraintRows s.tableau) (hc : c < s.nrVariables)
    (hpicks : Picks s.toBoard row c phase) :
    Moves (phase :: phases) r (s.pivot phase row c) :=
  h.tail List.mem_cons_self (.pivot hrow hc hpicks)

/-- What every move keeps is kept by all of them. -/
theorem keeps {I : Run τ Rat → Prop} (h : Moves phases r s)
    (hkeeps : ∀ phase ∈ phases, ∀ r s, Move phase r s → I r → I s) (hr : I r) : I s := by
  induction h with
  | refl => exact hr
  | tail _ hmove ih =>
    obtain ⟨phase, hphase, hmove⟩ := hmove
    exact hkeeps phase hphase _ _ hmove ih

end Run.Moves

/-! ## The initial basis -/

namespace Run

theorem nrVariables_enter (choose : Board τ Rat → Nat → Option Nat) (r : Run τ Rat)
    (column : Nat) : (enter choose r column).nrVariables = r.nrVariables := by
  unfold enter
  split
  · split <;> rfl
  · rfl

theorem moves_enter {choose : Board τ Rat → Nat → Option Nat}
    (hchoose : ∀ b column row, choose b column = some row →
      row ∈ constraintRows b.tableau ∧ (b.basic row = none → Picks b row column .start))
    {r : Run τ Rat} {column : Nat} (hc : column < r.nrVariables) :
    Moves [.start] r (enter choose r column) := by
  unfold enter
  split
  next row hrow =>
    obtain ⟨hmem, hpicks⟩ := hchoose _ _ _ hrow
    split
    next hnone =>
      exact (Moves.refl r).pivot hmem hc (hpicks (Option.isNone_iff_eq_none.1 hnone))
    next => exact .refl r
  next => exact .refl r

theorem moves_foldl_enter {choose : Board τ Rat → Nat → Option Nat}
    (hchoose : ∀ b column row, choose b column = some row →
      row ∈ constraintRows b.tableau ∧ (b.basic row = none → Picks b row column .start))
    (columns : List Nat) (r : Run τ Rat) (hcolumns : ∀ c ∈ columns, c < r.nrVariables) :
    Moves [.start] r (columns.foldl (enter choose) r) := by
  refine (List.foldlRecOn (motive := fun s : Run τ Rat =>
    Moves [.start] r s ∧ s.nrVariables = r.nrVariables) columns _ ⟨.refl r, rfl⟩ ?_).1
  rintro s ⟨hs, hn⟩ c hc
  exact ⟨hs.trans (moves_enter hchoose (hn ▸ hcolumns c hc)), (nrVariables_enter ..).trans hn⟩

theorem addArtificials_of_full {r : Run τ Rat} (h : r.basis.countP (·.isNone) = 0) :
    r.addArtificials = r := by
  have hnone : ∀ i ∈ List.range' 1 r.basis.length, r.addArtificial i = r := by
    intro i hi
    simp only [List.mem_range'_1] at hi
    have hlt : i - 1 < r.basis.length := by omega
    have := List.countP_eq_zero.1 h _ (List.getElem_mem hlt)
    unfold addArtificial
    rw [if_neg (by simpa [Board.basic, hlt] using this)]
  have hfold : (List.range' 1 r.basis.length).foldl addArtificial r = r :=
    List.foldlRecOn (motive := fun s => s = r) _ _ rfl fun s hs i hi => by rw [hs, hnone i hi]
  unfold addArtificials
  rw [hfold, if_pos h]

/-- Artificial columns are added behind all others, and the basis only gets entries. -/
structure Widens (b b' : Board τ Rat) : Prop where
  nrVariables : b'.nrVariables = b.nrVariables
  firstArtificial : b'.firstArtificial = b.firstArtificial
  dualColumns : b'.dualColumns = b.dualColumns
  length : b'.basis.length = b.basis.length
  nrRows : nrRows b'.tableau = Tableau.nrRows b.tableau
  nrColumns : nrColumns b.tableau ≤ Tableau.nrColumns b'.tableau
  old : ∀ i, ∀ j < Tableau.nrColumns b.tableau, get b'.tableau i j = get b.tableau i j

theorem widens_addArtificials [LawfulTableau τ] (r : Run τ Rat) :
    Widens r.toBoard r.addArtificials.toBoard := by
  have hfold : Widens r.toBoard
      ((List.range' 1 r.basis.length).foldl addArtificial r).toBoard := by
    refine List.foldlRecOn (motive := fun s : Run τ Rat => Widens r.toBoard s.toBoard) _ _
      ⟨rfl, rfl, rfl, rfl, rfl, le_rfl, fun _ _ _ => rfl⟩ fun s hs row _ => ?_
    unfold addArtificial
    split
    · refine ⟨hs.nrVariables, hs.firstArtificial, hs.dualColumns,
        (List.length_set ..).trans hs.length, ?_, ?_, fun i j hj => ?_⟩
      · exact .trans (by simp) hs.nrRows
      · exact hs.nrColumns.trans (by simp)
      · exact (get_set_addColumn_of_lt s.tableau row 1 i (hj.trans_le hs.nrColumns)).trans
          (hs.old i j hj)
    · exact hs
  unfold addArtificials
  dsimp only
  split
  · exact hfold
  · exact hfold

theorem history_addArtificials {r : Run τ Rat} (h : r.basis.countP (·.isNone) ≠ 0) :
    r.addArtificials.history =
      ⟨.artificialsAdded (r.basis.countP (·.isNone)), r.addArtificials.toBoard⟩ :: r.history := by
  have hfold : ((List.range' 1 r.basis.length).foldl addArtificial r).history = r.history :=
    List.foldlRecOn (motive := fun s : Run τ Rat => s.history = r.history) _ _ rfl
      fun s hs i _ => by
        unfold addArtificial
        split <;> exact hs
  unfold addArtificials
  rw [if_neg h]
  exact congrArg₂ List.cons rfl hfold

theorem moves_addArtificials (r : Run τ Rat) : Moves [.start] r r.addArtificials := by
  by_cases h : r.basis.countP (·.isNone) = 0
  · rw [addArtificials_of_full h]
    exact .refl r
  · exact (Moves.refl r).tail List.mem_cons_self (.fill h)

theorem moves_enterSingles (r : Run τ Rat) : Moves [.start] r r.enterSingles :=
  moves_foldl_enter (fun _ _ _ h => ⟨(get_pos_of_singlePositiveRow h).1, fun hnone =>
    .single hnone h⟩) _ r fun c hc => by simpa using hc

theorem moves_enterOthers (r : Run τ Rat) : Moves [.start] r r.enterOthers :=
  moves_foldl_enter (fun _ _ _ h => ⟨(get_pos_of_ratioRow h).1, fun hnone =>
    .ratio hnone h⟩) _ _ fun _ hc => List.mem_range.1 (List.mem_filter.1 hc).1

theorem moves_chooseBasis (r : Run τ Rat) : Moves [.start] r r.chooseBasis :=
  (((moves_enterSingles r).trans (moves_enterOthers _)).trans (moves_addArtificials _)).note
    .basisFound rfl

/-! ## The phases -/

section Phases

variable [LawfulTableau τ]

theorem moves_exchange (rows : List Nat) (r : Run τ Rat)
    (hrows : ∀ row ∈ rows, row ∈ constraintRows r.tableau) :
    Moves [.exchange] r (rows.foldl exchange (r, false)).1 := by
  refine (List.foldlRecOn (motive := fun out : Run τ Rat × Bool =>
    Moves [.exchange] r out.1 ∧ nrRows out.1.tableau = nrRows r.tableau) rows _
    ⟨.refl r, rfl⟩ ?_).1
  rintro ⟨s, pivoted⟩ ⟨hs, hn⟩ row hrow
  unfold exchange
  dsimp only
  split
  next ha =>
    split
    next c hc =>
      have hmem : row ∈ constraintRows s.tableau := constraintRows_congr hn ▸ hrows row hrow
      exact ⟨hs.pivot hmem (get_ne_zero_of_exchangeColumn hc).1 (.exchange ha hc),
        (ShapedTableau.nrRows_pivot s.tableau row c).trans hn⟩
    next => exact ⟨hs, hn⟩
  next => exact ⟨hs, hn⟩

theorem moves_removeRedundant (count row : Nat) (r : Run τ Rat) (hrow : 0 < row)
    (hcount : count ≤ nrRows r.tableau - row) :
    Moves [.exchange] r (removeRedundant count row r) := by
  induction count generalizing row r with
  | zero => exact .refl r
  | succ count ih =>
    unfold removeRedundant
    split
    next hredundant =>
      have hmem : row ∈ constraintRows r.tableau := mem_constraintRows.2 ⟨hrow, by omega⟩
      have hn : nrRows (r.removed row).tableau = nrRows r.tableau - 1 :=
        ShapedTableau.nrRows_removeRow r.tableau row (mem_constraintRows.1 hmem).2
      refine ((Moves.refl r).tail List.mem_cons_self (.remove hmem hredundant)).trans
        (ih row _ hrow ?_)
      show count ≤ nrRows (r.removed row).tableau - row
      omega
    next => exact ih (row + 1) r (Nat.succ_pos row) (by omega)

theorem moves_driveOut (r : Run τ Rat) : Moves [.exchange] r r.driveOut.1 := by
  have hexchanged := moves_exchange (constraintRows r.tableau) r fun _ hrow => hrow
  unfold driveOut
  generalize (constraintRows r.tableau).foldl exchange (r, false) = out at hexchanged ⊢
  obtain ⟨s, pivoted⟩ := out
  cases pivoted with
  | true => exact hexchanged.tail List.mem_cons_self .drop
  | false =>
    have hremoved := moves_removeRedundant (nrRows s.tableau - 1) 1 s Nat.one_pos le_rfl
    exact (hexchanged.trans hremoved).tail List.mem_cons_self .drop

theorem moves_primalStep (r : Run τ Rat) : Moves [.primal, .exchange] r r.primalStep.1 := by
  have hout (s : Run τ Rat) : Moves [.primal, .exchange] s s.driveOut.1 :=
    (moves_driveOut s).mono (by simp)
  unfold primalStep
  split
  next => exact hout r
  next c hselect =>
    split
    next =>
      exact (((Moves.refl r).note (.unboundedColumn c) rfl).mark r.guard .unbounded
        r.iterations).trans (hout _)
    next row hratio =>
      dsimp only
      split
      · exact (((Moves.refl r).mark (r.guard.record c) r.state r.iterations).note
          (.columnCycled c) rfl).mark (r.guard.record c) .noSolution r.iterations
      · exact ((Moves.refl r).mark (r.guard.record c) r.state (r.iterations + 1)).pivot
          (get_pos_of_ratioRow hratio).1 (PivotRule.get_pos_of_select hselect).1
          (.profit hselect hratio)

theorem moves_primal (r : Run τ Rat) : Moves [.primal, .exchange] r r.primal :=
  rounds_preserves (I := fun s => Moves [.primal, .exchange] r s)
    (fun s hs => hs.trans (moves_primalStep s)) _ r (.refl r)

theorem moves_repairRows (rows : List Nat) (r : Run τ Rat) (pivoted : Bool)
    (hrows : ∀ row ∈ rows, row ∈ constraintRows r.tableau) :
    Moves [.dual] r (repairRows rows r pivoted).1 := by
  induction rows generalizing r pivoted with
  | nil => exact .refl r
  | cons row rest ih =>
    have hrest : ∀ i ∈ rest, i ∈ constraintRows r.tableau :=
      fun i hi => hrows i (List.mem_cons_of_mem _ hi)
    unfold repairRows
    split
    next hneg =>
      have hneg : get r.tableau row r.rhs < 0 := by simpa [isNegative] using hneg
      split
      next => exact ih r pivoted hrest
      next c hc =>
        dsimp only
        split
        · exact (((Moves.refl r).mark (r.guard.record row) r.state r.iterations).note
            (.rowCycled row) rfl).mark (r.guard.record row) .noSolution r.iterations
        · have hpivoted : Moves [.dual] r _ :=
            ((Moves.refl r).mark (r.guard.record row) r.state (r.iterations + 1)).pivot
              (hrows row List.mem_cons_self) (repairColumn_some hc).1 (.repair hneg hc)
          refine hpivoted.trans (ih _ true fun i hi => ?_)
          exact constraintRows_congr (ShapedTableau.nrRows_pivot r.tableau row c) ▸ hrest i hi
    next => exact ih r pivoted hrest

theorem moves_dual (r : Run τ Rat) : Moves [.dual] r r.dual := by
  unfold dual
  split
  · have hreset : Moves [.dual] r { r with guard := r.guard.reset } :=
      (Moves.refl r).mark r.guard.reset r.state r.iterations
    exact hreset.trans (rounds_preserves (I := fun s => Moves [.dual] _ s)
      (fun s hs => hs.trans (moves_repairRows _ s false fun _ hrow => hrow)) _ _ (.refl _))
  · exact .refl r

end Phases

/-- Reading the answer only tells about the run, which any phase may do. -/
theorem moves_readRows (phase : Phase) (places : Nat) (r : Run τ Rat) :
    Moves [phase] r (r.readRows places).1 := by
  refine List.foldlRecOn (motive := fun s : Run τ Rat × List Float => Moves [phase] r s.1) _ _
    (.refl r) fun s hs row _ => ?_
  rw [readRow_fst]
  split
  · exact (hs.note (.rowInfeasible row _ _) rfl).mark s.1.guard .noSolution s.1.iterations
  · exact hs

theorem moves_finish (phase : Phase) (r : Run τ Rat) : Moves [phase] r r.finish := by
  unfold finish
  dsimp only
  split
  · exact ((Moves.refl r).mark r.guard .solved r.iterations).note .finished rfl
  · exact (Moves.refl r).note .finished rfl

end Run

/-! ## Solving a program -/

section Solve

variable [LawfulTableau τ] (p) (rule : PivotRule) (threshold places : Nat)

def Run.afterPreparation (τ : Type) [Tableau τ Rat] (p : StandardForm Rat n) (rule : PivotRule)
    (threshold : Nat) : Run τ Rat :=
  ({ Run.start (Board.ofStandardForm p rule threshold) with state := .solving } : Run τ Rat).prepare

omit [LawfulTableau τ] in
theorem Run.moves_begin : Moves [.start] (afterPreparation τ p rule threshold)
    (begin (.ofStandardForm p rule threshold)) :=
  moves_chooseBasis _

/-- Once the primal phase is over, a program is solved by moves of the dual phase. -/
theorem Simplex.moves_afterPrimal :
    Run.Moves [.dual] (Run.afterPrimal τ p rule threshold)
      (Simplex.new (τ := τ) p rule threshold places).solve.run := by
  rw [Simplex.solve_run]
  exact ((Run.moves_dual _).trans (Run.moves_readRows .dual places _)).trans
    (Run.moves_finish .dual _)

/-- Once it has a basis, a program is solved by moves of the later phases. -/
theorem Simplex.moves_begin :
    Run.Moves [.primal, .exchange, .dual] (Run.begin (.ofStandardForm p rule threshold))
      (Simplex.new (τ := τ) p rule threshold places).solve.run :=
  Run.Moves.trans ((Run.moves_primal _).mono (by simp))
    ((moves_afterPrimal p rule threshold places).mono (by simp))

theorem Simplex.moves_solve :
    Run.Moves [.start, .primal, .exchange, .dual] (Run.afterPreparation τ p rule threshold)
      (Simplex.new (τ := τ) p rule threshold places).solve.run :=
  ((Run.moves_begin p rule threshold).mono (by simp)).trans
    ((moves_begin p rule threshold places).mono (by simp))

end Solve

theorem Run.Move.layout [LawfulTableau τ] {phase : Phase} {r s : Run τ Rat}
    (h : Move phase r s) :
    s.nrVariables = r.nrVariables ∧ s.firstArtificial = r.firstArtificial ∧
      s.dualColumns = r.dualColumns := by
  cases h with
  | fill h =>
    have hwidens := widens_addArtificials r
    exact ⟨hwidens.nrVariables, hwidens.firstArtificial, hwidens.dualColumns⟩
  | _ => exact ⟨rfl, rfl, rfl⟩

theorem Run.Moves.nrVariables [LawfulTableau τ] {phases : List Phase} {r s : Run τ Rat}
    (h : Moves phases r s) : s.nrVariables = r.nrVariables :=
  h.keeps (I := fun s : Run τ Rat => s.nrVariables = r.nrVariables)
    (fun _ _ _ _ hmove hr => hmove.layout.1.trans hr) rfl

theorem Run.Picks.get_ne_zero {b : Board τ Rat} {row c : Nat} {phase : Phase}
    (h : Picks b row c phase) : get b.tableau row c ≠ 0 := by
  cases h with
  | single hnone h => exact (get_pos_of_singlePositiveRow h).2.ne'
  | ratio hnone h => exact (get_pos_of_ratioRow h).2.ne'
  | profit hselect h => exact (get_pos_of_ratioRow h).2.ne'
  | exchange ha h => exact (get_ne_zero_of_exchangeColumn h).2
  | repair hneg h => exact (repairColumn_some h).2.1.1.ne

/-! ## Moments -/

/-- The board that a run went on with after an event: a removal is noted before it is made. -/
def Entry.after (e : Entry τ Rat) : Board τ Rat :=
  match e.event with
  | .rowRemoved row => e.board.removed row
  | _ => e.board

theorem Entry.after_of_isNote {e : Entry τ Rat} (h : e.event.isNote = true) :
    e.after = e.board := by
  unfold after
  split
  next heq => rw [heq] at h; cases h
  next => rfl

omit [Tableau τ Rat] in
theorem Run.moment_suffix (r : Run τ Rat) {k : Nat} (h : k < r.history.length) :
    r.history.get ⟨k, h⟩ :: r.history.drop (k + 1) <:+ r.history :=
  List.drop_eq_getElem_cons h ▸ List.drop_suffix k r.history

/-- Two boards with the same work on them. -/
def Board.Agrees (b b' : Board τ Rat) : Prop :=
  ∃ guard state iterations, b' = { b with guard := guard, state := state, iterations := iterations }

omit [Tableau τ Rat] in
theorem Board.Agrees.refl (b : Board τ Rat) : Agrees b b := ⟨b.guard, b.state, b.iterations, rfl⟩

omit [Tableau τ Rat] in
theorem Board.Agrees.symm {b b' : Board τ Rat} (h : Agrees b b') : Agrees b' b := by
  obtain ⟨guard, state, iterations, rfl⟩ := h
  exact ⟨b.guard, b.state, b.iterations, rfl⟩

omit [Tableau τ Rat] in
theorem Board.Agrees.trans {b b' b'' : Board τ Rat} (h : Agrees b b') (h' : Agrees b' b'') :
    Agrees b b'' := by
  obtain ⟨guard, state, iterations, rfl⟩ := h
  obtain ⟨guard, state, iterations, rfl⟩ := h'
  exact ⟨guard, state, iterations, rfl⟩

theorem Run.Picks.agrees {b b' : Board τ Rat} (h : Agrees b b') {row c : Nat} {phase : Phase}
    (hpicks : Picks b row c phase) : Picks b' row c phase := by
  obtain ⟨guard, state, iterations, rfl⟩ := h
  cases hpicks with
  | single hnone h => exact .single hnone h
  | ratio hnone h => exact .ratio hnone h
  | profit hselect h => exact .profit hselect h
  | exchange ha h => exact .exchange ha h
  | repair hneg h => exact .repair hneg h

/-- What a move of a phase says of its event: a pivot is one of this phase. -/
def Run.PivotedOn (phase : Phase) (r s : Run τ Rat) (event : Event) : Prop :=
  ∀ phase' row c, event = .pivoted phase' row c →
    phase' = phase ∧ row ∈ constraintRows r.tableau ∧ c < r.nrVariables ∧
      Picks r.toBoard row c phase ∧
      s.toBoard = r.exchanged (Tableau.pivot r.tableau row c) row c

/-- A move is bookkeeping, or it leaves a moment. -/
theorem Run.Move.history {phase : Phase} {r s : Run τ Rat} (h : Move phase r s) :
    s.history = r.history ∧ Agrees r.toBoard s.toBoard ∨
      ∃ e, s.history = e :: r.history ∧ e.after = s.toBoard ∧ PivotedOn phase r s e.event := by
  cases h with
  | note event h =>
    refine .inr ⟨_, rfl, Entry.after_of_isNote h, fun phase' row c heq => ?_⟩
    rw [show event = _ from heq] at h
    cases h
  | mark guard state iterations => exact .inl ⟨rfl, guard, state, iterations, rfl⟩
  | pivot hrow hc hpicks =>
    refine .inr ⟨_, rfl, rfl, fun phase' row c heq => ?_⟩
    obtain ⟨rfl, rfl, rfl⟩ := Event.pivoted.inj heq
    exact ⟨rfl, hrow, hc, hpicks, rfl⟩
  | fill h =>
    exact .inr ⟨_, history_addArtificials h, rfl, fun phase' row c heq => by cases heq⟩
  | remove hrow hredundant => exact .inr ⟨_, rfl, rfl, fun phase' row c heq => by cases heq⟩
  | drop => exact .inr ⟨_, rfl, rfl, fun phase' row c heq => by cases heq⟩

theorem Run.Moves.history {phases : List Phase} {r s : Run τ Rat} (h : Moves phases r s) :
    r.history <:+ s.history := by
  refine h.keeps (I := fun s => r.history <:+ s.history) (fun phase _ s t hmove hs => ?_)
    (List.suffix_refl _)
  obtain ⟨heq, -⟩ | ⟨e, heq, -⟩ := hmove.history
  · exact heq ▸ hs
  · exact heq ▸ hs.trans (List.suffix_cons e _)

/-- A run that stands where its latest event left it. -/
def Run.IsLatest (r : Run τ Rat) : Prop :=
  ∃ e earlier, r.history = e :: earlier ∧ Agrees e.after r.toBoard

theorem Run.IsLatest.move {r s : Run τ Rat} (h : r.IsLatest) {phase : Phase}
    (hmove : Move phase r s) : s.IsLatest := by
  obtain ⟨e, earlier, hhistory, hagrees⟩ := h
  obtain ⟨heq, hmark⟩ | ⟨e', heq, hafter, -⟩ := hmove.history
  · exact ⟨e, earlier, heq.trans hhistory, hagrees.trans hmark⟩
  · exact ⟨e', r.history, heq, hafter ▸ .refl _⟩

/-- What every move keeps holds at all moments of a run from a moment on. -/
theorem Run.Moves.moments {I : Run τ Rat → Prop} {phase : Phase} {phases : List Phase}
    {r₀ r : Run τ Rat} (h : Moves (phase :: phases) r₀ r)
    (hkeeps : ∀ phase' ∈ phase :: phases, ∀ r s, Move phase' r s → I r → I s)
    (hlatest : r₀.IsLatest) (h₀ : I r₀) {e : Entry τ Rat} {earlier : List (Entry τ Rat)}
    (he : e :: earlier <:+ r.history) (hsince : r₀.history <:+ e :: earlier) :
    I ⟨e.after, e :: earlier⟩ := by
  have hall : I r ∧ ∀ e earlier, e :: earlier <:+ r.history → r₀.history <:+ e :: earlier →
      I ⟨e.after, e :: earlier⟩ := by
    refine h.keeps (I := fun r => I r ∧ ∀ e earlier, e :: earlier <:+ r.history →
      r₀.history <:+ e :: earlier → I ⟨e.after, e :: earlier⟩) ?_
      ⟨h₀, fun e earlier he hsince => ?_⟩
    · rintro phase' hphase r s hmove ⟨hr, hall⟩
      have hs := hkeeps phase' hphase r s hmove hr
      refine ⟨hs, fun e earlier he hsince => ?_⟩
      obtain ⟨heq, -⟩ | ⟨e', heq, hafter, -⟩ := hmove.history
      · exact hall e earlier (heq ▸ he) hsince
      · rw [heq, List.suffix_cons_iff] at he
        rcases he with he | he
        · obtain ⟨rfl, rfl⟩ := List.cons.inj he
          rw [hafter, ← heq]
          exact hs
        · exact hall e earlier he hsince
    · -- the first moment is where the run stands, but for bookkeeping
      have heq := he.eq_of_length_le hsince.length_le
      obtain ⟨e', earlier', hhistory, hagrees⟩ := hlatest
      rw [hhistory] at heq
      obtain ⟨rfl, rfl⟩ := List.cons.inj heq
      obtain ⟨guard, state, iterations, hboard⟩ := hagrees.symm
      rw [hboard, ← hhistory]
      exact hkeeps phase List.mem_cons_self _ _ (.mark guard state iterations) h₀
  exact hall.2 e earlier he hsince

/-- How an event follows the moment before it, if it is a pivot. -/
def Entry.Follows (e : Entry τ Rat) (earlier : List (Entry τ Rat)) (phase : Phase)
    (row c : Nat) : Prop :=
  ∃ prev before, earlier = prev :: before ∧ row ∈ constraintRows prev.after.tableau ∧
    c < prev.after.nrVariables ∧ Run.Picks prev.after row c phase ∧
    Agrees (prev.after.exchanged (Tableau.pivot prev.after.tableau row c) row c) e.after

/-- A run that stands where its latest event left it, and each pivot of which was made on the moment
before it. -/
structure Run.Traced (r : Run τ Rat) : Prop where
  latest : r.IsLatest
  pivots : ∀ e earlier, e :: earlier <:+ r.history → ∀ phase row c,
    e.event = .pivoted phase row c → e.Follows earlier phase row c

theorem Run.Traced.move {r s : Run τ Rat} (h : r.Traced) {phase : Phase}
    (hmove : Move phase r s) : s.Traced := by
  refine ⟨h.latest.move hmove, fun e earlier he phase' row c hevent => ?_⟩
  obtain ⟨heq, -⟩ | ⟨e', heq, hafter, hpivoted⟩ := hmove.history
  · exact h.pivots e earlier (heq ▸ he) phase' row c hevent
  rw [heq, List.suffix_cons_iff] at he
  rcases he with he | he
  · obtain ⟨rfl, rfl⟩ := List.cons.inj he
    obtain ⟨prev, before, hhistory, guard, state, iterations, hboard⟩ := h.latest
    obtain ⟨rfl, hrow, hc, hpicks, hs⟩ := hpivoted phase' row c hevent
    rw [hboard] at hrow hc hpicks hs
    exact ⟨prev, before, hhistory, hrow, hc, hpicks.agrees (.symm ⟨guard, state, iterations, rfl⟩),
      guard, state, iterations, hafter.trans hs⟩
  · exact h.pivots e earlier he phase' row c hevent

theorem Run.Moves.traced {phases : List Phase} {r s : Run τ Rat} (h : Moves phases r s)
    (hr : r.Traced) : s.Traced :=
  h.keeps (fun _ _ _ _ hmove h => h.move hmove) hr

/-- No phase but its own makes a pivot. -/
theorem Run.Moves.not_pivoted {phases : List Phase} {r s : Run τ Rat} (h : Moves phases r s)
    {phase : Phase} (hphase : phase ∉ phases)
    (hr : ∀ e ∈ r.history, ∀ row c, e.event ≠ .pivoted phase row c) :
    ∀ e ∈ s.history, ∀ row c, e.event ≠ .pivoted phase row c := by
  refine h.keeps (I := fun s => ∀ e ∈ s.history, ∀ row c, e.event ≠ .pivoted phase row c)
    (fun phase' hphase' s t hmove hs => ?_) hr
  obtain ⟨heq, -⟩ | ⟨e, heq, -, hpivoted⟩ := hmove.history
  · exact heq ▸ hs
  · rw [heq, List.forall_mem_cons]
    refine ⟨fun row c hevent => ?_, hs⟩
    obtain ⟨rfl, -⟩ := hpivoted phase row c hevent
    exact hphase hphase'

section Solve

variable (p) (rule : PivotRule) (threshold places : Nat)

theorem Run.traced_afterPreparation : (afterPreparation τ p rule threshold).Traced := by
  refine ⟨⟨_, _, rfl, .refl _⟩, fun e earlier he phase row c hevent => ?_⟩
  rcases List.suffix_cons_iff.1 he with he | he
  · rw [(List.cons.inj he).1] at hevent
    cases hevent
  · cases List.suffix_nil.1 he

theorem Run.traced_begin : (begin (Board.ofStandardForm (τ := τ) p rule threshold)).Traced :=
  (moves_begin p rule threshold).traced (traced_afterPreparation p rule threshold)

variable [LawfulTableau τ]

theorem Run.traced_afterPrimal : (afterPrimal τ p rule threshold).Traced :=
  (moves_primal _).traced (traced_begin p rule threshold)

/-- Every pivot that solves a program was made on the moment before it. -/
theorem Simplex.traced_solve :
    (Simplex.new (τ := τ) p rule threshold places).solve.run.Traced :=
  (moves_afterPrimal p rule threshold places).traced (Run.traced_afterPrimal p rule threshold)

end Solve

end LinProg
