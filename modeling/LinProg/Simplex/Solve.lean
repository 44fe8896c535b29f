import LinProg.Number.Places
import LinProg.Simplex.Primal
import LinProg.Simplex.Dual

/-!
# The simplex method

Maximizes `c · x` subject to `A x = b` and `x ≥ 0`, on a full tableau: find a basis, raise the
objective, repair what became negative, and read the answer off the tableau.  Both loops stop by
themselves within the number of rounds they are given, since the guard trips at last.
-/

namespace LinProg

/-- Repeats a step while it asks for more, at most `fuel` times.  Tells whether it still asks. -/
def rounds {σ : Type} (step : σ → σ × Bool) : Nat → σ → σ × Bool
  | 0, s => (s, true)
  | fuel + 1, s =>
    match step s with
    | (s, true) => rounds step fuel s
    | (s, false) => (s, false)

/-- What is read off a tableau, rounded to decimal places. -/
structure Report where
  max : Float
  x : List Float
  reducedCost : List Float
  shadowPrice : List Float

namespace Run

variable {τ α : Type} [Tableau τ α] [Scalar α]

/-! ## The two loops -/

/-- No run takes more primal rounds: an index is pivoted on fewer than ten times the threshold
before the guard trips, and an artificial column is driven out at most once per row. -/
def primalRounds (b : Board τ α) : Nat :=
  b.nrVariables * (10 * b.guard.threshold) + b.basis.length + 1

def primal (r : Run τ α) : Run τ α := (rounds primalStep (primalRounds r.toBoard) r).1

/-- No run takes more dual rounds. -/
def dualRounds (b : Board τ α) : Nat := b.basis.length * (10 * b.guard.threshold) + 1

def dual (r : Run τ α) : Run τ α :=
  if r.state = .solving then
    let r := { r with guard := r.guard.reset }
    (rounds dualStep (dualRounds r.toBoard) r).1
  else
    r

/-! ## The answer -/

def rounded (places : Nat) (value : α) : Float :=
  Binary64.roundToPlaces places (Scalar.toFloat value)

/-- Whether the right hand side of a row contradicts its basic column: it is negative, or positive
for an artificial column, or there is no basic column. -/
def isInfeasible (b : Board τ α) (basic : Option Nat) (value : Float) : Bool :=
  value < 0 ||
    match basic with
    | some column => b.firstArtificial ≤ column && 0 < value
    | none => true

/-- Reads the value of the basic column of a row. -/
def readRow (places : Nat) : Run τ α × List Float → Nat → Run τ α × List Float
  | (r, x), row =>
    let value := rounded places (Tableau.get r.tableau row r.rhs)
    let basic := r.basic row
    let r :=
      if isInfeasible r.toBoard basic value then
        { r.note (.rowInfeasible row value basic) with state := .noSolution }
      else
        r
    match basic with
    | some column => (r, x.set column value)
    | none => (r, x)

def readRows (places : Nat) (r : Run τ α) : Run τ α × List Float :=
  (Tableau.constraintRows r.tableau).foldl (readRow places) (r, List.replicate r.nrVariables 0)

/-- The dual value that a tracked column tells. -/
def dualValue (b : Board τ α) : Option (Nat × α) → α
  | some (column, coefficient) => -Tableau.get b.tableau 0 column / coefficient
  | none => 0

def report (places : Nat) (b : Board τ α) (x : List Float) : Report where
  max := rounded places (-Tableau.get b.tableau 0 b.rhs)
  x := x
  reducedCost := (List.range b.nrVariables).map fun column =>
    rounded places (-Tableau.get b.tableau 0 column)
  shadowPrice := b.dualColumns.map fun found => rounded places (dualValue b found)

/-- A run that was not found to fail has solved its program. -/
def finish (r : Run τ α) : Run τ α :=
  let r := if r.state = .solving then { r with state := .solved } else r
  r.note .finished

/-- The run with its two phases done, before the answer is read. -/
def phases (r : Run τ α) : Run τ α :=
  ({ r with state := .solving } : Run τ α).prepare.chooseBasis.primal.dual

end Run

/-- A program in standard form on its way to a solution. -/
structure Simplex (τ α : Type) where
  run : Run τ α
  places : Nat
  report : Report

namespace Simplex

variable {τ α : Type} [Tableau τ α] [Scalar α]

/-- A program to be solved. -/
def new {n : Nat} (p : StandardForm α n) (rule : PivotRule) (threshold places : Nat) :
    Simplex τ α where
  run := .start (.ofStandardForm p rule threshold)
  places := places
  report := ⟨0 / 0, List.replicate n 0, [], []⟩

/-- Solves the program, unless that was done before. -/
def solve (s : Simplex τ α) : Simplex τ α :=
  if s.run.state = .zero then
    let (r, x) := s.run.phases.readRows s.places
    let r := r.finish
    { s with run := r, report := Run.report s.places r.toBoard x }
  else
    s

def state (s : Simplex τ α) : State := s.run.state

def iterations (s : Simplex τ α) : Nat := s.run.iterations

end Simplex

end LinProg
