import LinProg.Simplex.Basis

/-!
# The primal phase

`primalStep` raises the objective by one pivot.  Once no column is profitable, or one can be
increased without bound, artificial columns are driven out of the basis; a row of zeros that an
artificial column still holds is redundant and removed.
-/

namespace LinProg

namespace Run

variable {τ α : Type} [Tableau τ α] [Scalar α]

/-! ## Artificial columns -/

/-- The first variable that can replace the artificial column of a row: it has a value there, and
not a negative one under a positive right hand side. -/
def exchangeColumn (b : Board τ α) (row : Nat) : Option Nat :=
  (List.range b.nrVariables).find? fun column =>
    !Tableau.isZero b.tableau row column
      && !(Tableau.isNegative b.tableau row column && Tableau.isPositive b.tableau row b.rhs)

/-- Replaces the artificial column of a row if possible; tells whether any was replaced. -/
def exchange : Run τ α × Bool → Nat → Run τ α × Bool
  | (r, pivoted), row =>
    if r.isArtificial (r.basic row) then
      match exchangeColumn r.toBoard row with
      | some column => (r.pivot .exchange row column, true)
      | none => (r, pivoted)
    else
      (r, pivoted)

/-- Whether a row is held by an artificial column and has no value, the right hand side included. -/
def isRedundant (b : Board τ α) (row : Nat) : Bool :=
  b.isArtificial (b.basic row) && !Tableau.anyNonzero b.tableau row (b.nrVariables + 1)

/-- Removes the redundant ones of `count` rows from `row` on. -/
def removeRedundant : (count row : Nat) → Run τ α → Run τ α
  | 0, _, r => r
  | count + 1, row, r =>
    if isRedundant r.toBoard row then
      let r := r.note (.rowRemoved row)
      removeRedundant count row { r with
        tableau := Tableau.removeRow r.tableau row
        basis := r.basis.eraseIdx (row - 1) }
    else
      removeRedundant count (row + 1) r

/-- Replaces artificial columns, or removes redundant rows if none can be replaced.  Then the
artificial columns are dropped.  Tells whether any was replaced. -/
def driveOut (r : Run τ α) : Run τ α × Bool :=
  let (r, pivoted) := (Tableau.constraintRows r.tableau).foldl exchange (r, false)
  let r := if pivoted then r else removeRedundant (Tableau.nrRows r.tableau - 1) 1 r
  let r := { r with tableau := Tableau.truncateColumns r.tableau r.firstArtificial }
  (r.note .artificialsDropped, pivoted)

/-! ## Pivots -/

/-- One pivot, or what is done without one.  Tells whether to go on. -/
def primalStep (r : Run τ α) : Run τ α × Bool :=
  match r.rule.select r.tableau r.nrVariables with
  | none => r.driveOut
  | some column =>
    match ratioRow r.toBoard column with
    | none => driveOut { r.note (.unboundedColumn column) with state := .unbounded }
    | some row =>
      let r := { r with guard := r.guard.record column }
      if r.guard.isTripped then (r.giveUp (.columnCycled column), false)
      else ({ r with iterations := r.iterations + 1 }.pivot .primal row column, true)

end Run

end LinProg
