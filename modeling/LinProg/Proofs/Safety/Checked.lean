import LinProg.Relaxation

/-!
# The simplex method with every access checked

What stands here does the same as the method, step by step, but fails where a machine would: at a
row that doesn't exist or a column that isn't active, at a place beyond the end of a list, at a
division by zero, at a number that isn't finite, at a count of pivots that doesn't fit 64 bits, and
if a loop is still asking for more when its rounds are used up.  Rows are counted from one, so the
entry of a row in a list is looked for one place in front of it; there is none for the cost row.
Tests that the method skips are made all the same, so that more is read here than there.  What
counts things that stand in memory, such as rows, columns and repeating indices, always fits.
-/

namespace LinProg.Checked

/-! ## Lists -/

section Lists

variable {β : Type}

def setAt (l : List β) (i : Nat) (x : β) : Option (List β) :=
  if i < l.length then some (l.set i x) else none

def entry (l : List β) (row : Nat) : Option β := if 0 < row then l[row - 1]? else none

def setEntry (l : List β) (row : Nat) (x : β) : Option (List β) :=
  if 0 < row then setAt l (row - 1) x else none

def eraseEntry (l : List β) (row : Nat) : Option (List β) :=
  if 0 < row ∧ row ≤ l.length then some (l.eraseIdx (row - 1)) else none

/-- What passes a test that may fail. -/
def filter (test : β → Option Bool) : List β → Option (List β)
  | [] => some []
  | x :: rest => do
    let passes ← test x
    let rest ← filter test rest
    return if passes then x :: rest else rest

def rounds (step : β → Option (β × Bool)) : Nat → β → Option β
  | 0, _ => none
  | fuel + 1, s => do
    let (s, again) ← step s
    if again then rounds step fuel s else return s

end Lists

variable {τ α : Type} [Tableau τ α] [Scalar α]

open Tableau (nrRows nrColumns constraintRows)

open Numeral (countLimit)

/-! ## Tableaus -/

def quotient (x y : α) : Option α := if Scalar.isZero y then none else some (x / y)

/-- Reads in a row that exists and a column that is active. -/
def read (t : τ) (row column : Nat) : Option α :=
  if row < nrRows t ∧ column < nrColumns t then some (Tableau.get t row column) else none

def write (t : τ) (row column : Nat) (value : α) : Option τ :=
  if row < nrRows t ∧ column < nrColumns t then some (Tableau.set t row column value) else none

def pivot (t : τ) (row column : Nat) : Option τ := do
  let value ← read t row column
  if Scalar.isZero value then none else return Tableau.pivot t row column

def negateRow (t : τ) (row : Nat) : Option τ :=
  if row < nrRows t then some (Tableau.negateRow t row) else none

def removeRow (t : τ) (row : Nat) : Option τ :=
  if 0 < row ∧ row < nrRows t then some (Tableau.removeRow t row) else none

def truncateColumns (t : τ) (width : Nat) : Option τ :=
  if width ≤ nrColumns t then some (Tableau.truncateColumns t width) else none

def isZero (t : τ) (row column : Nat) : Option Bool := (read t row column).map Scalar.isZero

def isPositive (t : τ) (row column : Nat) : Option Bool := (read t row column).map Scalar.isPositive

def isNegative (t : τ) (row column : Nat) : Option Bool := (read t row column).map Scalar.isNegative

def anyPositive (t : τ) (row width : Nat) : Option Bool :=
  (List.range width).anyM (isPositive t row)

def anyNonzero (t : τ) (row width : Nat) : Option Bool :=
  (List.range width).anyM fun column => (isZero t row column).map (! ·)

def compare (t : τ) (a b : Nat × Nat) : Option Ordering := do
  let x ← read t a.1 a.2
  let y ← read t b.1 b.2
  return (Scalar.compare? x y).getD .eq

/-! ## Preparation -/

def keepsSign (b : Board τ α) (row : Nat) : Option Bool := do
  let positive ← isPositive b.tableau row b.rhs
  let zero ← isZero b.tableau row b.rhs
  let any ← anyPositive b.tableau row b.rhs
  return positive || zero && any

/-- Which rows keep their sign.  Every row needs a place in the basis. -/
def keptSigns (b : Board τ α) : Option (List Bool) :=
  (constraintRows b.tableau).mapM fun row => do
    let _ ← entry b.basis row
    keepsSign b row

def nonnegative (b : Board τ α) (kept : List Bool) : Option τ :=
  (constraintRows b.tableau).foldlM
    (fun t row => do
      let keeps ← entry kept row
      if keeps then return t else negateRow t row)
    b.tableau

def addDualColumns (kept : List Bool) :
    (row : Nat) → τ → List (Option (Nat × α)) → Option (τ × List (Option (Nat × α)))
  | _, t, [] => some (t, [])
  | row, t, some found :: rest => do
    let (t, rest) ← addDualColumns kept (row + 1) t rest
    return (t, some found :: rest)
  | row, t, none :: rest => do
    let keeps ← entry kept row
    let widened ← write (Tableau.addColumn t) row (nrColumns t) 1
    let (u, rest) ← addDualColumns kept (row + 1) widened rest
    return (u, some (nrColumns t, if keeps then 1 else -1) :: rest)

def prepare (r : Run τ α) : Option (Run τ α) := do
  let kept ← keptSigns r.toBoard
  let t ← nonnegative r.toBoard kept
  let (t, dualColumns) ← addDualColumns kept 1 t r.dualColumns
  let prepared : Run τ α :=
    { r with tableau := t, dualColumns := dualColumns, firstArtificial := nrColumns t }
  return prepared.note .prepared

/-! ## The initial basis -/

def pivotRun (r : Run τ α) (phase : Phase) (row column : Nat) : Option (Run τ α) := do
  let t ← pivot r.tableau row column
  let basis ← setEntry r.basis row (some column)
  let pivoted : Run τ α := { r with tableau := t, basis := basis }
  return pivoted.note (.pivoted phase row column)

def singlePositiveRow (t : τ) (column : Nat) : Option (Option Nat) := do
  match ← filter (fun row => isPositive t row column) (constraintRows t) with
  | [row] => return some row
  | _ => return none

def betterRow (b : Board τ α) (column : Nat) (best : Option (Nat × α)) (row : Nat) :
    Option (Option (Nat × α)) := do
  let positive ← isPositive b.tableau row column
  if positive then
    let rhs ← read b.tableau row b.rhs
    let value ← read b.tableau row column
    let ratio ← quotient rhs value
    match best with
    | none => return some (row, ratio)
    | some (bestRow, bestRatio) =>
      let basic ← entry b.basis row
      let bestBasic ← entry b.basis bestRow
      if Scalar.less ratio bestRatio
          || (Scalar.same ratio bestRatio && Run.basicBefore basic bestBasic) then
        return some (row, ratio)
      else
        return best
  else
    return best

def ratioRow (b : Board τ α) (column : Nat) : Option (Option Nat) := do
  let best ← (constraintRows b.tableau).foldlM (betterRow b column) none
  return best.map Prod.fst

def enter (choose : Board τ α → Nat → Option (Option Nat)) (r : Run τ α) (column : Nat) :
    Option (Run τ α) := do
  match ← choose r.toBoard column with
  | some row =>
    let basic ← entry r.basis row
    if basic.isNone then pivotRun r .start row column else return r
  | none => return r

def enterSingles (r : Run τ α) : Option (Run τ α) :=
  (List.range r.nrVariables).reverse.foldlM (enter fun b => singlePositiveRow b.tableau) r

def enterOthers (r : Run τ α) : Option (Run τ α) :=
  ((List.range r.nrVariables).filter fun column => !r.basis.contains (some column)).foldlM
    (enter ratioRow) r

def addArtificial (r : Run τ α) (row : Nat) : Option (Run τ α) := do
  let basic ← entry r.basis row
  if basic.isNone then
    let column := nrColumns r.tableau
    let t ← write (Tableau.addColumn r.tableau) row column 1
    let basis ← setEntry r.basis row (some column)
    return { r with tableau := t, basis := basis }
  else
    return r

def addArtificials (r : Run τ α) : Option (Run τ α) := do
  let missing := r.basis.countP (·.isNone)
  let r ← (List.range' 1 r.basis.length).foldlM addArtificial r
  return if missing = 0 then r else r.note (.artificialsAdded missing)

def chooseBasis (r : Run τ α) : Option (Run τ α) := do
  let r ← enterSingles r
  let r ← enterOthers r
  let r ← addArtificials r
  return r.note .basisFound

/-! ## Counted pivots -/

def increment (count : Nat) : Option Nat :=
  if count + 1 < countLimit then some (count + 1) else none

/-- Counts a pivot on an index and makes it, or gives up.  Tells whether it was made. -/
def countedPivot (r : Run τ α) (index : Nat) (cycled : Event) (phase : Phase) (row column : Nat) :
    Option (Run τ α × Bool) := do
  let _ ← increment (r.guard.count index)
  let r := { r with guard := r.guard.record index }
  if ← r.guard.isTripped? then
    return (r.giveUp cycled, false)
  else
    let iterations ← increment r.iterations
    let r ← pivotRun { r with iterations := iterations } phase row column
    return (r, true)

/-! ## The primal phase -/

def better (t : τ) (best : Option Nat) (column : Nat) : Option (Option Nat) :=
  match best with
  | none => some (some column)
  | some current => do
    let order ← compare t (0, column) (0, current)
    return if order = .gt then some column else some current

def select (rule : PivotRule) (t : τ) (n : Nat) : Option (Option Nat) :=
  match rule with
  | .largestCoefficient => do
    match ← (List.range n).foldlM (better t) none with
    | some column =>
      let positive ← isPositive t 0 column
      return if positive then some column else none
    | none => return none
  | .firstProfitable => (List.range n).findM? (isPositive t 0)

def exchangeColumn (b : Board τ α) (row : Nat) : Option (Option Nat) :=
  (List.range b.nrVariables).findM? fun column => do
    let zero ← isZero b.tableau row column
    let negative ← isNegative b.tableau row column
    let positive ← isPositive b.tableau row b.rhs
    return !zero && !(negative && positive)

def exchange : Run τ α × Bool → Nat → Option (Run τ α × Bool)
  | (r, pivoted), row => do
    let basic ← entry r.basis row
    if r.isArtificial basic then
      match ← exchangeColumn r.toBoard row with
      | some column =>
        let r ← pivotRun r .exchange row column
        return (r, true)
      | none => return (r, pivoted)
    else
      return (r, pivoted)

def isRedundant (b : Board τ α) (row : Nat) : Option Bool := do
  let basic ← entry b.basis row
  let any ← anyNonzero b.tableau row (b.nrVariables + 1)
  return b.isArtificial basic && !any

def removeRedundant : (count row : Nat) → Run τ α → Option (Run τ α)
  | 0, _, r => some r
  | count + 1, row, r => do
    let redundant ← isRedundant r.toBoard row
    if redundant then
      let t ← removeRow r.tableau row
      let basis ← eraseEntry r.basis row
      removeRedundant count row { r.note (.rowRemoved row) with tableau := t, basis := basis }
    else
      removeRedundant count (row + 1) r

def driveOut (r : Run τ α) : Option (Run τ α × Bool) := do
  let (r, pivoted) ← (constraintRows r.tableau).foldlM exchange (r, false)
  let r ← if pivoted then some r else removeRedundant (nrRows r.tableau - 1) 1 r
  let t ← truncateColumns r.tableau r.firstArtificial
  let dropped : Run τ α := { r with tableau := t }
  return (dropped.note .artificialsDropped, pivoted)

def primalStep (r : Run τ α) : Option (Run τ α × Bool) := do
  match ← select r.rule r.tableau r.nrVariables with
  | none => driveOut r
  | some column =>
    match ← ratioRow r.toBoard column with
    | none => driveOut { r.note (.unboundedColumn column) with state := .unbounded }
    | some row => countedPivot r column (.columnCycled column) .primal row column

def primal (r : Run τ α) : Option (Run τ α) := rounds primalStep (Run.primalRounds r.toBoard) r

/-! ## The dual phase -/

def betterColumn (b : Board τ α) (row : Nat) (best : Option (Nat × α)) (column : Nat) :
    Option (Option (Nat × α)) := do
  let negative ← isNegative b.tableau row column
  if negative && !b.basis.contains (some column) then
    let profit ← read b.tableau 0 column
    let value ← read b.tableau row column
    let ratio ← quotient profit value
    match best with
    | none => return some (column, ratio)
    | some (_, bestRatio) =>
      return if Scalar.less ratio bestRatio then some (column, ratio) else best
  else
    return best

def repairColumn (b : Board τ α) (row : Nat) : Option (Option Nat) := do
  let best ← (List.range b.nrVariables).foldlM (betterColumn b row) none
  return best.map Prod.fst

def repairRows : List Nat → Run τ α → Bool → Option (Run τ α × Bool)
  | [], r, pivoted => some (r, pivoted)
  | row :: rest, r, pivoted => do
    let negative ← isNegative r.tableau row r.rhs
    if negative then
      match ← repairColumn r.toBoard row with
      | none => repairRows rest r pivoted
      | some column =>
        match ← countedPivot r row (.rowCycled row) .dual row column with
        | (r, true) => repairRows rest r true
        | (r, false) => return (r, false)
    else
      repairRows rest r pivoted

def dualStep (r : Run τ α) : Option (Run τ α × Bool) :=
  repairRows (constraintRows r.tableau) r false

def dual (r : Run τ α) : Option (Run τ α) :=
  if r.state = .solving then
    let r := { r with guard := r.guard.reset }
    rounds dualStep (Run.dualRounds r.toBoard) r
  else
    some r

/-! ## The answer -/

def readRow (places : Nat) : Run τ α × List Float → Nat → Option (Run τ α × List Float)
  | (r, x), row => do
    let entered ← read r.tableau row r.rhs
    let value := Run.rounded places entered
    let basic ← entry r.basis row
    let r : Run τ α :=
      if Run.isInfeasible r.toBoard basic value then
        { r.note (.rowInfeasible row value basic) with state := .noSolution }
      else
        r
    match basic with
    | some column =>
      if column < r.nrVariables then
        let x ← setAt x column value
        return (r, x)
      else
        return (r, x)
    | none => return (r, x)

def readRows (places : Nat) (r : Run τ α) : Option (Run τ α × List Float) :=
  (constraintRows r.tableau).foldlM (readRow places) (r, List.replicate r.nrVariables 0)

def dualValue (b : Board τ α) : Option (Nat × α) → Option α
  | some (column, coefficient) => do
    let profit ← read b.tableau 0 column
    quotient (-profit) coefficient
  | none => some 0

def report (places : Nat) (b : Board τ α) (x : List Float) : Option Report := do
  let max ← read b.tableau 0 b.rhs
  let profits ← (List.range b.nrVariables).mapM (read b.tableau 0)
  let dualValues ← b.dualColumns.mapM (dualValue b)
  return {
    max := Run.rounded places (-max)
    x := x
    reducedCost := profits.map fun profit => Run.rounded places (-profit)
    shadowPrice := dualValues.map (Run.rounded places) }

def phases (r : Run τ α) : Option (Run τ α) := do
  let r ← prepare { r with state := .solving }
  let r ← chooseBasis r
  let r ← primal r
  dual r

def solveSimplex (s : Simplex τ α) : Option (Simplex τ α) :=
  if s.run.state = .zero then do
    let r ← phases s.run
    let (r, x) ← readRows s.places r
    let answer ← report s.places r.finish.toBoard x
    return { s with run := r.finish, report := answer }
  else
    some s

/-! ## Linear programs -/

variable {n : Nat}

/-- The slack part of a row, if it has a column for the slack. -/
def slackPart (width k : Nat) (slack : Option Float) : Option (Vector Float width) :=
  match slack with
  | none => some (Vector.replicate width 0)
  | some s => if h : k < width then some ((Vector.replicate width 0).set k s) else none

def equationsFrom (lp : LinearProgram Float n) :
    Nat → List (Constraint Float n) → Option (List (Equation Float lp.nrColumns))
  | _, [] => some []
  | k, c :: rest => do
    let slack : Option Float := c.relation.slack?
    let slacks ← slackPart lp.nrSlacks k slack
    let rest ← equationsFrom lp (if slack.isSome then k + 1 else k) rest
    return ⟨lp.split c.coefficients ++ slacks, c.rhs⟩ :: rest

def standardize (lp : LinearProgram Float n) : Option (StandardForm Float lp.nrColumns) := do
  let equations ← equationsFrom lp 0 lp.constraints
  return ⟨lp.standardCost, equations⟩

def isFinite (p : StandardForm Float n) : Bool :=
  p.cost.toList.all Float.isFinite &&
    p.equations.all fun e => e.coefficients.toList.all Float.isFinite && e.rhs.isFinite

def convert (p : StandardForm Float n) : Option (StandardForm α n) :=
  if isFinite p then some (p.map Scalar.ofFloat) else none

/-- The slack variables of a program, which are looked for among its doubles. -/
def slackColumns (p : StandardForm Float n) : Option (List (Option (Nat × α))) :=
  (List.finRange n).foldlM
    (fun found j =>
      if Scalar.isZero (p.cost.get j) then
        match p.equations.zipIdx.filter fun (e, _) => !Scalar.isZero (e.coefficients.get j) with
        | [(e, i)] => setAt found i (some (j.val, Scalar.ofFloat (e.coefficients.get j)))
        | _ => some found
      else
        some found)
    (List.replicate p.equations.length none)

def simplex (τ : Type) {α : Type} [Tableau τ α] [Scalar α] (settings : Settings)
    (lp : LinearProgram Float n) : Option (Simplex τ α) := do
  let p ← standardize lp
  let values ← convert p
  let dualColumns ← slackColumns p
  let s : Simplex τ α :=
    .new values .largestCoefficient settings.cyclingThreshold settings.precision
  solveSimplex { s with run := { s.run with dualColumns := dualColumns } }

/-- Every column of the standard form needs a value, and every variable a reduced cost. -/
def solutionOf (settings : Settings) (lp : LinearProgram Float n) (s : Simplex τ α) :
    Option (Solution Float) :=
  if s.run.state = .solved →
      s.report.x.length = lp.nrColumns ∧ n ≤ s.report.reducedCost.length then
    some (lp.solutionOf settings s)
  else
    none

def solveOn (τ : Type) {α : Type} [Tableau τ α] [Scalar α] (settings : Settings)
    (lp : LinearProgram Float n) : Option (Solution Float) := do
  let s : Simplex τ α ← simplex τ settings lp
  solutionOf settings lp s

end LinProg.Checked
