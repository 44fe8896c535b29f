import LinProg.Tableau.Basic

/-!
# Pivot rules

Which column enters the basis.  Either rule answers with a column of positive relative profit if
there is one among the variables.
-/

namespace LinProg

inductive PivotRule where
  /-- The column of largest relative profit, the first among equals. -/
  | largestCoefficient
  /-- The first column of positive relative profit. -/
  | firstProfitable
  deriving DecidableEq, Repr

namespace PivotRule

variable {τ α : Type} [Tableau τ α] [Scalar α]

/-- The better one of the best column so far and the next one. -/
def better (t : τ) (best : Option Nat) (column : Nat) : Option Nat :=
  match best with
  | none => some column
  | some current =>
    if Tableau.compare t (0, column) (0, current) = .gt then some column else some current

/-- The column that enters, among the first `n`. -/
def select (rule : PivotRule) (t : τ) (n : Nat) : Option Nat :=
  match rule with
  | largestCoefficient =>
    ((List.range n).foldl (better t) none).filter fun column => Tableau.isPositive t 0 column
  | firstProfitable => (List.range n).find? fun column => Tableau.isPositive t 0 column

end PivotRule

end LinProg
