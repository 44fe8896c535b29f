import LinProg.Simplex.Run

/-!
# The dual phase

With no profitable column left, rows of negative right hand side are repaired by pivots that keep
all relative profits nonpositive.
-/

namespace LinProg

namespace Run

variable {τ α : Type} [Tableau τ α] [Scalar α]

/-- The better one of the best column so far, with its ratio, and the next nonbasic column with a
negative value in the row. -/
def betterColumn (b : Board τ α) (row : Nat) (best : Option (Nat × α)) (column : Nat) :
    Option (Nat × α) :=
  if Tableau.isNegative b.tableau row column && !b.basis.contains (some column) then
    let ratio := Tableau.get b.tableau 0 column / Tableau.get b.tableau row column
    match best with
    | none => some (column, ratio)
    | some (_, bestRatio) => if Scalar.less ratio bestRatio then some (column, ratio) else best
  else
    best

/-- The column that a row is repaired with: the smallest ratio of relative profit and value. -/
def repairColumn (b : Board τ α) (row : Nat) : Option Nat :=
  ((List.range b.nrVariables).foldl (betterColumn b row) none).map Prod.fst

/-- Repairs the rows of negative right hand side one after the other.  Tells whether to make another
round, which is the case once a pivot was made and the guard did not trip. -/
def repairRows : List Nat → Run τ α → Bool → Run τ α × Bool
  | [], r, pivoted => (r, pivoted)
  | row :: rest, r, pivoted =>
    if Tableau.isNegative r.tableau row r.rhs then
      match repairColumn r.toBoard row with
      | none => repairRows rest r pivoted
      | some column =>
        let r := { r with guard := r.guard.record row }
        if r.guard.isTripped then (r.giveUp (.rowCycled row), false)
        else repairRows rest ({ r with iterations := r.iterations + 1 }.pivot .dual row column) true
    else
      repairRows rest r pivoted

/-- One round over all rows. -/
def dualStep (r : Run τ α) : Run τ α × Bool :=
  repairRows (Tableau.constraintRows r.tableau) r false

end Run

end LinProg
