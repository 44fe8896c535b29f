import LinProg.Proofs.Tableau.Grid
import LinProg.Simplex.Solve

/-!
# Runs on another storage

A homomorphism of storages carries boards and runs from one storage to another, with everything
that happened on the way.  The simplex method asks a storage for nothing but its operations, so each
of its functions commutes with that: what it decides is the same, and what it leaves behind is
carried over.
-/

namespace LinProg

variable {τ σ α : Type}

def Board.map (f : τ → σ) (b : Board τ α) : Board σ α := { b with tableau := f b.tableau }

def Entry.map (f : τ → σ) (e : Entry τ α) : Entry σ α := ⟨e.event, e.board.map f⟩

def Run.map (f : τ → σ) (r : Run τ α) : Run σ α := ⟨r.toBoard.map f, r.history.map (Entry.map f)⟩

def Simplex.map (f : τ → σ) (s : Simplex τ α) : Simplex σ α := { s with run := s.run.map f }

namespace Simplex

variable (f : τ → σ) (s : Simplex τ α)

@[simp] theorem state_map : (s.map f).state = s.state := rfl

@[simp] theorem iterations_map : (s.map f).iterations = s.iterations := rfl

@[simp] theorem report_map : (s.map f).report = s.report := rfl

theorem map_map {ρ : Type} (g : σ → ρ) : (s.map f).map g = s.map (g ∘ f) := by
  simp only [map, Run.map, List.map_map]
  rfl

end Simplex

theorem eq_map_ite {ρ π : Type} {g : ρ → π} {c : Prop} [Decidable c] {yes no : π} {a b : ρ}
    (hyes : yes = g a) (hno : no = g b) : (if c then yes else no) = g (if c then a else b) := by
  rw [hyes, hno, apply_ite g]

theorem rounds_map {ρ π : Type} {step : ρ → ρ × Bool} {step' : π → π × Bool} {g : ρ → π}
    (h : ∀ s, step' (g s) = Prod.map g id (step s)) :
    ∀ (fuel : Nat) (s : ρ), rounds step' fuel (g s) = Prod.map g id (rounds step fuel s)
  | 0, _ => rfl
  | fuel + 1, s => by
    rw [rounds, rounds, h]
    rcases step s with ⟨next, again⟩
    cases again with
    | true => exact rounds_map h fuel next
    | false => rfl

variable [Tableau τ α] [Tableau σ α]

/-! ## What is read -/

namespace Tableau.IsHom

variable {f : τ → σ} (hf : IsHom f) (t : τ)
include hf

theorem get_eq : get (f t) = get t := funext₂ (hf.get_map t)

theorem constraintRows_map : constraintRows (f t) = constraintRows t := by
  rw [constraintRows, hf.nrRows_map, constraintRows]

variable [Scalar α]

theorem isZero_map : isZero (f t) = isZero t := by
  funext row column
  rw [isZero, hf.get_map, isZero]

theorem isPositive_map : isPositive (f t) = isPositive t := by
  funext row column
  rw [isPositive, hf.get_map, isPositive]

theorem isNegative_map : isNegative (f t) = isNegative t := by
  funext row column
  rw [isNegative, hf.get_map, isNegative]

theorem compare_map : compare (f t) = compare t := by
  funext a b
  rw [compare, hf.get_eq, compare]

theorem anyPositive_map : anyPositive (f t) = anyPositive t := by
  funext row width
  rw [anyPositive, hf.isPositive_map, anyPositive]

theorem anyNonzero_map : anyNonzero (f t) = anyNonzero t := by
  funext row width
  rw [anyNonzero, hf.isZero_map, anyNonzero]

theorem select_map (rule : PivotRule) : rule.select (f t) = rule.select t := by
  funext n
  cases rule with
  | largestCoefficient =>
    have hbetter : PivotRule.better (f t) = PivotRule.better t := by
      funext best column
      simp only [PivotRule.better, hf.compare_map]
    rw [PivotRule.select, PivotRule.select, hbetter, hf.isPositive_map]
  | firstProfitable => rw [PivotRule.select, PivotRule.select, hf.isPositive_map]

end Tableau.IsHom

/-! ## What is done -/

namespace Run

variable {f : τ → σ} (hf : Tableau.IsHom f)
include hf

theorem pivot_map (r : Run τ α) (phase : Phase) (row column : Nat) :
    (r.map f).pivot phase row column = (r.pivot phase row column).map f := by
  have ht : Tableau.pivot (r.map f).tableau row column = f (Tableau.pivot r.tableau row column) :=
    (hf.map_pivot r.tableau row column).symm
  rw [pivot, ht]
  rfl

variable [Scalar α] (r : Run τ α)

/-! ### The initial basis -/

theorem keepsSign_map (b : Board τ α) : keepsSign (b.map f) = keepsSign b := by
  funext row
  simp only [keepsSign, Board.map, hf.isPositive_map, hf.isZero_map, hf.anyPositive_map]

theorem nonnegative_map (b : Board τ α) : nonnegative (b.map f) = f (nonnegative b) := by
  rw [nonnegative, keepsSign_map hf]
  show List.foldl _ (f b.tableau) (Tableau.constraintRows (f b.tableau)) = _
  rw [hf.constraintRows_map, nonnegative]
  exact List.foldl_hom f fun t row => eq_map_ite rfl (hf.map_negateRow t row).symm

theorem addDualColumns_map (sign : Nat → α) (dualColumns : List (Option (Nat × α))) :
    ∀ (row : Nat) (t : τ), addDualColumns sign row (f t) dualColumns =
      Prod.map f id (addDualColumns sign row t dualColumns) := by
  induction dualColumns with
  | nil => exact fun _ _ => rfl
  | cons found rest ih =>
    intro row t
    cases found with
    | some found => rw [addDualColumns, addDualColumns, ih]; rfl
    | none =>
      rw [addDualColumns, addDualColumns, hf.nrColumns_map, ← hf.map_addColumn, ← hf.map_set, ih]
      rfl

theorem prepare_map : (r.map f).prepare = r.prepare.map f := by
  have hnonnegative : nonnegative (r.map f).toBoard = f (nonnegative r.toBoard) :=
    nonnegative_map hf r.toBoard
  have hsign : keepsSign (r.map f).toBoard = keepsSign r.toBoard := keepsSign_map hf r.toBoard
  have hdual : (r.map f).dualColumns = r.dualColumns := rfl
  simp only [prepare, hnonnegative, hsign, hdual, addDualColumns_map hf, Prod.map_fst,
    Prod.map_snd, hf.nrColumns_map]
  rfl

theorem singlePositiveRow_map (t : τ) : singlePositiveRow (f t) = singlePositiveRow t := by
  funext column
  rw [singlePositiveRow, hf.constraintRows_map, hf.isPositive_map, singlePositiveRow]

theorem ratioRow_map (b : Board τ α) : ratioRow (b.map f) = ratioRow b := by
  have hbetter : betterRow (b.map f) = betterRow b := by
    funext column best row
    simp only [betterRow, Board.map, Board.basic, hf.isPositive_map, hf.get_eq]
    rfl
  funext column
  rw [ratioRow, hbetter, ratioRow]
  exact congrArg _ (congrArg _ (hf.constraintRows_map b.tableau))

omit [Scalar α] in
theorem enter_map {choose : Board τ α → Nat → Option Nat} {choose' : Board σ α → Nat → Option Nat}
    (hchoose : ∀ b, choose' (b.map f) = choose b) (r : Run τ α) (column : Nat) :
    enter choose' (r.map f) column = (enter choose r column).map f := by
  have h : choose' (r.map f).toBoard column = choose r.toBoard column :=
    congrFun (hchoose r.toBoard) column
  rw [enter, h, enter]
  cases choose r.toBoard column with
  | none => rfl
  | some row => exact eq_map_ite (pivot_map hf r .start row column) rfl

theorem enterSingles_map : enterSingles (r.map f) = (enterSingles r).map f :=
  List.foldl_hom (Run.map f) (enter_map hf fun b => singlePositiveRow_map hf b.tableau)

theorem enterOthers_map : enterOthers (r.map f) = (enterOthers r).map f :=
  List.foldl_hom (Run.map f) (enter_map hf (ratioRow_map hf))

theorem addArtificial_map (row : Nat) :
    addArtificial (r.map f) row = (addArtificial r row).map f := by
  have ht : (r.map f).tableau = f r.tableau := rfl
  simp only [addArtificial, ht, hf.nrColumns_map, ← hf.map_addColumn, ← hf.map_set]
  exact eq_map_ite rfl rfl

theorem addArtificials_map : addArtificials (r.map f) = (addArtificials r).map f := by
  have h : (List.range' 1 r.basis.length).foldl addArtificial (r.map f) =
      ((List.range' 1 r.basis.length).foldl addArtificial r).map f :=
    List.foldl_hom (Run.map f) fun r row => addArtificial_map hf r row
  unfold addArtificials
  exact eq_map_ite h (congrArg (note · _) h)

theorem chooseBasis_map : chooseBasis (r.map f) = (chooseBasis r).map f := by
  rw [chooseBasis, enterSingles_map hf, enterOthers_map hf, addArtificials_map hf]
  rfl

/-! ### The primal phase -/

theorem exchangeColumn_map (b : Board τ α) : exchangeColumn (b.map f) = exchangeColumn b := by
  funext row
  simp only [exchangeColumn, Board.map, hf.isZero_map, hf.isNegative_map, hf.isPositive_map]

theorem exchange_map (s : Run τ α × Bool) (row : Nat) :
    exchange (Prod.map (Run.map f) id s) row = Prod.map (Run.map f) id (exchange s row) := by
  obtain ⟨r, pivoted⟩ := s
  have h : exchangeColumn (r.map f).toBoard row = exchangeColumn r.toBoard row :=
    congrFun (exchangeColumn_map hf r.toBoard) row
  simp only [Prod.map_apply, exchange, h]
  refine eq_map_ite ?_ rfl
  cases exchangeColumn r.toBoard row with
  | none => rfl
  | some column => exact congrArg (·, true) (pivot_map hf r .exchange row column)

theorem isRedundant_map (b : Board τ α) : isRedundant (b.map f) = isRedundant b := by
  funext row
  simp only [isRedundant, Board.map, Board.isArtificial, Board.basic, hf.anyNonzero_map]
  rfl

theorem removeRedundant_map :
    ∀ (count row : Nat) (r : Run τ α),
      removeRedundant count row (r.map f) = (removeRedundant count row r).map f
  | 0, _, _ => rfl
  | count + 1, row, r => by
    have h : isRedundant (r.map f).toBoard row = isRedundant r.toBoard row :=
      congrFun (isRedundant_map hf r.toBoard) row
    rw [removeRedundant, removeRedundant, h]
    refine eq_map_ite ?_ (removeRedundant_map count (row + 1) r)
    rw [← removeRedundant_map]
    refine congrArg (removeRedundant count row) ?_
    have ht : Tableau.removeRow (r.map f).tableau row = f (Tableau.removeRow r.tableau row) :=
      (hf.map_removeRow r.tableau row).symm
    simp only [note, ht]
    rfl

theorem driveOut_map : (r.map f).driveOut = Prod.map (Run.map f) id r.driveOut := by
  have hrows : Tableau.constraintRows (r.map f).tableau = Tableau.constraintRows r.tableau :=
    hf.constraintRows_map r.tableau
  have hfold : (Tableau.constraintRows r.tableau).foldl exchange (r.map f, false) =
      Prod.map (Run.map f) id ((Tableau.constraintRows r.tableau).foldl exchange (r, false)) := by
    rw [← List.foldl_hom (Prod.map (Run.map f) id) (exchange_map hf)]
    rfl
  rw [driveOut, driveOut, hrows, hfold]
  rcases (Tableau.constraintRows r.tableau).foldl exchange (r, false) with ⟨next, pivoted⟩
  have hremove : removeRedundant (Tableau.nrRows (next.map f).tableau - 1) 1 (next.map f) =
      (removeRedundant (Tableau.nrRows next.tableau - 1) 1 next).map f := by
    rw [← removeRedundant_map hf]
    exact congrArg (fun n => removeRedundant (n - 1) 1 (next.map f)) (hf.nrRows_map next.tableau)
  have htruncate (r : Run τ α) :
      Tableau.truncateColumns (r.map f).tableau (r.map f).firstArtificial =
        f (Tableau.truncateColumns r.tableau r.firstArtificial) :=
    (hf.map_truncateColumns r.tableau r.firstArtificial).symm
  cases pivoted with
  | true =>
    simp only [Prod.map_apply, id, if_true, htruncate]
    rfl
  | false =>
    simp only [Prod.map_apply, id, Bool.false_eq_true, if_false, hremove, htruncate]
    rfl

theorem primalStep_map : (r.map f).primalStep = Prod.map (Run.map f) id r.primalStep := by
  have hselect : (r.map f).rule.select (r.map f).tableau (r.map f).nrVariables =
      r.rule.select r.tableau r.nrVariables := congrFun (hf.select_map r.tableau r.rule) _
  have hratio : ratioRow (r.map f).toBoard = ratioRow r.toBoard := ratioRow_map hf r.toBoard
  rw [primalStep, hselect, hratio, primalStep]
  cases r.rule.select r.tableau r.nrVariables with
  | none => exact driveOut_map hf r
  | some column =>
    dsimp only
    cases ratioRow r.toBoard column with
    | none => exact driveOut_map hf { r.note (.unboundedColumn column) with state := .unbounded }
    | some row =>
      refine eq_map_ite rfl ?_
      exact congrArg (·, true) (pivot_map hf
        { r with guard := r.guard.record column, iterations := r.iterations + 1 } .primal row
        column)

theorem primal_map : (r.map f).primal = r.primal.map f :=
  congrArg Prod.fst (rounds_map (primalStep_map hf) (primalRounds r.toBoard) r)

/-! ### The dual phase -/

theorem repairColumn_map (b : Board τ α) : repairColumn (b.map f) = repairColumn b := by
  have hbetter : betterColumn (b.map f) = betterColumn b := by
    funext row best column
    simp only [betterColumn, Board.map, hf.isNegative_map, hf.get_eq]
  funext row
  rw [repairColumn, hbetter]
  rfl

theorem repairRows_map :
    ∀ (rows : List Nat) (r : Run τ α) (pivoted : Bool),
      repairRows rows (r.map f) pivoted = Prod.map (Run.map f) id (repairRows rows r pivoted)
  | [], _, _ => rfl
  | row :: rest, r, pivoted => by
    have hnegative : Tableau.isNegative (r.map f).tableau row (r.map f).rhs =
        Tableau.isNegative r.tableau row r.rhs :=
      congrFun₂ (hf.isNegative_map r.tableau) row r.rhs
    have hcolumn : repairColumn (r.map f).toBoard row = repairColumn r.toBoard row :=
      congrFun (repairColumn_map hf r.toBoard) row
    rw [repairRows, hnegative, hcolumn, repairRows]
    refine eq_map_ite ?_ (repairRows_map rest r pivoted)
    cases repairColumn r.toBoard row with
    | none => exact repairRows_map rest r pivoted
    | some column =>
      refine eq_map_ite rfl ?_
      rw [← repairRows_map]
      exact congrArg (repairRows rest · true) (pivot_map hf
        { r with guard := r.guard.record row, iterations := r.iterations + 1 } .dual row column)

theorem dualStep_map : (r.map f).dualStep = Prod.map (Run.map f) id r.dualStep := by
  rw [dualStep, dualStep, ← repairRows_map hf]
  exact congrArg (repairRows · (r.map f) false) (hf.constraintRows_map r.tableau)

theorem dual_map : (r.map f).dual = r.dual.map f := by
  unfold dual
  refine eq_map_ite ?_ rfl
  exact congrArg Prod.fst (rounds_map (dualStep_map hf) _ { r with guard := r.guard.reset })

/-! ### The answer -/

theorem readRow_map (places : Nat) (s : Run τ α × List Float) (row : Nat) :
    readRow places (Prod.map (Run.map f) id s) row =
      Prod.map (Run.map f) id (readRow places s row) := by
  obtain ⟨r, x⟩ := s
  have hget : Tableau.get (r.map f).tableau row (r.map f).rhs = Tableau.get r.tableau row r.rhs :=
    hf.get_map r.tableau row r.rhs
  have hbasic : (r.map f).basic row = r.basic row := rfl
  simp only [Prod.map_apply, readRow, hget, hbasic]
  cases r.basic row with
  | none => exact congrArg (·, x) (eq_map_ite rfl rfl)
  | some column => exact congrArg (·, x.set column _) (eq_map_ite rfl rfl)

theorem readRows_map (places : Nat) :
    (r.map f).readRows places = Prod.map (Run.map f) id (r.readRows places) := by
  have hrows : Tableau.constraintRows (r.map f).tableau = Tableau.constraintRows r.tableau :=
    hf.constraintRows_map r.tableau
  rw [readRows, hrows, readRows, ← List.foldl_hom (Prod.map (Run.map f) id) (readRow_map hf places)]
  rfl

theorem report_map (places : Nat) (b : Board τ α) (x : List Float) :
    report places (b.map f) x = report places b x := by
  have hvalue : dualValue (b.map f) = dualValue b := by
    funext found
    cases found with
    | none => rfl
    | some found => simp only [dualValue, Board.map, hf.get_eq]
  simp only [report, hvalue]
  simp only [Board.map, hf.get_eq]

omit hf [Tableau τ α] [Tableau σ α] [Scalar α] in
theorem finish_map : (r.map f).finish = r.finish.map f := by
  have h : (if r.state = .solving then { r.map f with state := .solved } else r.map f) =
      (if r.state = .solving then { r with state := .solved } else r).map f := eq_map_ite rfl rfl
  exact congrArg (note · .finished) h

theorem phases_map : (r.map f).phases = r.phases.map f := by
  rw [phases, phases, ← dual_map hf, ← primal_map hf, ← chooseBasis_map hf, ← prepare_map hf]
  rfl

end Run

/-! ### Solving -/

namespace Simplex

variable [Scalar α] {f : τ → σ} (hf : Tableau.IsHom f)
include hf

theorem new_map {n : Nat} (p : StandardForm α n) (rule : PivotRule) (threshold places : Nat) :
    (new p rule threshold places : Simplex τ α).map f = new p rule threshold places := by
  unfold new Simplex.map Run.start Run.map Board.map Board.ofStandardForm
  simp only [hf.map_ofRows]
  rfl

theorem solve_map (s : Simplex τ α) : (s.map f).solve = s.solve.map f := by
  unfold solve
  refine eq_map_ite ?_ rfl
  have hread : (s.map f).run.phases.readRows (s.map f).places =
      Prod.map (Run.map f) id (s.run.phases.readRows s.places) := by
    rw [← Run.readRows_map hf, ← Run.phases_map hf]
    rfl
  simp only [hread, Prod.map_fst, Prod.map_snd, id, Run.finish_map]
  exact congrArg (Simplex.mk _ s.places) (Run.report_map hf s.places _ _)

end Simplex

end LinProg
