import LinProg.Program.Standard
import LinProg.Simplex.CyclingGuard
import LinProg.Simplex.PivotRule
import LinProg.Solution

/-!
# Runs of the simplex method

A `Board` is what the method works on: the tableau and what is known about its columns.  Columns
`0 … n - 1` are the variables and column `n` is the right hand side; then come the columns that
track dual values and, while a feasible basis is sought, the artificial ones.  A `Run` is a board
with the `Event`s that led to it, each with the board right after it.
-/

namespace LinProg

structure Board (τ α : Type) where
  tableau : τ
  nrVariables : Nat
  /-- Basic column of each constraint row. -/
  basis : List (Option Nat)
  /-- For each constraint of the program, the column whose relative profit tells its dual value
  and the coefficient of that column in the row as it was given. -/
  dualColumns : List (Option (Nat × α))
  /-- Columns from here on are artificial. -/
  firstArtificial : Nat
  guard : CyclingGuard
  rule : PivotRule
  state : State
  iterations : Nat

/-- What a pivot is made for. -/
inductive Phase where
  /-- Finding an initial basis. -/
  | start
  /-- Raising the objective. -/
  | primal
  /-- Replacing an artificial basic column. -/
  | exchange
  /-- Repairing a negative right hand side. -/
  | dual
  deriving DecidableEq, Repr

inductive Event where
  /-- Right hand sides are nonnegative and every constraint has its dual column. -/
  | prepared
  | pivoted (phase : Phase) (row column : Nat)
  | artificialsAdded (count : Nat)
  | basisFound
  | unboundedColumn (column : Nat)
  /-- The guard tripped on a column that was about to enter. -/
  | columnCycled (column : Nat)
  /-- The guard tripped on a row that was about to be repaired. -/
  | rowCycled (row : Nat)
  | rowRemoved (row : Nat)
  | artificialsDropped
  /-- A row has no admissible value. -/
  | rowInfeasible (row : Nat) (value : Float) (basic : Option Nat)
  | finished

structure Entry (τ α : Type) where
  event : Event
  board : Board τ α

structure Run (τ α : Type) extends Board τ α where
  /-- The latest entry comes first. -/
  history : List (Entry τ α)

namespace Board

variable {τ α : Type}

/-- The basic column of a constraint row. -/
def basic (b : Board τ α) (row : Nat) : Option Nat := b.basis.getD (row - 1) none

def isArtificial (b : Board τ α) (basic : Option Nat) : Bool :=
  basic.any fun column => b.firstArtificial ≤ column

/-- The column of the right hand side. -/
abbrev rhs (b : Board τ α) : Nat := b.nrVariables

variable [Tableau τ α] [Scalar α]

/-- Columns of cost zero with a single value in the matrix, by the row of that value: what a slack
variable looks like.  The last such column of a row counts. -/
def slackColumns {n : Nat} (p : StandardForm α n) : List (Option (Nat × α)) :=
  (List.finRange n).foldl
    (fun found j =>
      if Scalar.isZero (p.cost.get j) then
        match p.equations.zipIdx.filter fun (e, _) => !Scalar.isZero (e.coefficients.get j) with
        | [(e, i)] => found.set i (some (j.val, e.coefficients.get j))
        | _ => found
      else
        found)
    (List.replicate p.equations.length none)

/-- The board of a program in standard form, before any work. -/
def ofStandardForm {n : Nat} (p : StandardForm α n) (rule : PivotRule) (threshold : Nat) :
    Board τ α where
  tableau := Tableau.ofRows <|
    (p.cost.toList ++ [0]) :: p.equations.map fun e => e.coefficients.toList ++ [e.rhs]
  nrVariables := n
  basis := List.replicate p.equations.length none
  dualColumns := slackColumns p
  firstArtificial := n + 1
  guard := .new n threshold
  rule := rule
  state := .zero
  iterations := 0

end Board

namespace Run

variable {τ α : Type}

/-- A run that did nothing yet. -/
def start (b : Board τ α) : Run τ α := ⟨b, []⟩

def note (r : Run τ α) (event : Event) : Run τ α :=
  { r with history := ⟨event, r.toBoard⟩ :: r.history }

variable [Tableau τ α]

/-- Pivots and makes the column basic in the row. -/
def pivot (r : Run τ α) (phase : Phase) (row column : Nat) : Run τ α :=
  let r := { r with
    tableau := Tableau.pivot r.tableau row column
    basis := r.basis.set (row - 1) (some column) }
  r.note (.pivoted phase row column)

/-- Ends a run whose guard tripped. -/
def giveUp (r : Run τ α) (event : Event) : Run τ α := { r.note event with state := .noSolution }

end Run

end LinProg
