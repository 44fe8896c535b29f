import LinProg.Simplex.Run

/-!
# The initial basis

`prepare` makes all right hand sides nonnegative and gives every constraint a column that tracks its
dual value.  `chooseBasis` then finds a basic column for every row: columns with a single positive
value first, then columns whose ratio test picks a row that has none yet, and an artificial column
for each row that is left.
-/

namespace LinProg

namespace Run

variable {τ α : Type} [Tableau τ α] [Scalar α]

/-! ## Preparation -/

/-- Whether a row can keep its sign.  One without right hand side needs a positive coefficient. -/
def keepsSign (b : Board τ α) (row : Nat) : Bool :=
  Tableau.isPositive b.tableau row b.rhs
    || (Tableau.isZero b.tableau row b.rhs && Tableau.anyPositive b.tableau row b.rhs)

/-- The tableau with the rows negated that can't keep their sign. -/
def nonnegative (b : Board τ α) : τ :=
  (Tableau.constraintRows b.tableau).foldl
    (fun t row => if keepsSign b row then t else Tableau.negateRow t row) b.tableau

/-- Adds a unit column for each constraint, from row `row` on, that has no dual column yet.  `sign`
tells the coefficient that such a column has in the row as it was given. -/
def addDualColumns (sign : Nat → α) :
    (row : Nat) → τ → List (Option (Nat × α)) → τ × List (Option (Nat × α))
  | _, t, [] => (t, [])
  | row, t, some found :: rest =>
    let (t, rest) := addDualColumns sign (row + 1) t rest
    (t, some found :: rest)
  | row, t, none :: rest =>
    let column := Tableau.nrColumns t
    let (t, rest) :=
      addDualColumns sign (row + 1) (Tableau.set (Tableau.addColumn t) row column 1) rest
    (t, some (column, sign row) :: rest)

def prepare (r : Run τ α) : Run τ α :=
  let sign row := if keepsSign r.toBoard row then (1 : α) else -1
  let (t, dualColumns) := addDualColumns sign 1 (nonnegative r.toBoard) r.dualColumns
  let r := { r with
    tableau := t
    dualColumns := dualColumns
    firstArtificial := Tableau.nrColumns t }
  r.note .prepared

/-! ## Choice of rows -/

/-- The only row with a positive value in a column, if there is exactly one. -/
def singlePositiveRow (t : τ) (column : Nat) : Option Nat :=
  match (Tableau.constraintRows t).filter fun row => Tableau.isPositive t row column with
  | [row] => some row
  | _ => none

/-- The order of basic columns, rows without one coming first. -/
def basicBefore : Option Nat → Option Nat → Bool
  | none, some _ => true
  | some a, some b => a < b
  | _, none => false

/-- The better one of the best row so far, with its ratio, and the next row with a positive value in
the column.  Equal ratios are decided by the leaving column, which avoids most cycles. -/
def betterRow (b : Board τ α) (column : Nat) (best : Option (Nat × α)) (row : Nat) :
    Option (Nat × α) :=
  if Tableau.isPositive b.tableau row column then
    let ratio := Tableau.get b.tableau row b.rhs / Tableau.get b.tableau row column
    match best with
    | none => some (row, ratio)
    | some (bestRow, bestRatio) =>
      if Scalar.less ratio bestRatio
          || (Scalar.same ratio bestRatio && basicBefore (b.basic row) (b.basic bestRow)) then
        some (row, ratio)
      else
        best
  else
    best

/-- The row that a column enters: the smallest ratio of right hand side and positive value. -/
def ratioRow (b : Board τ α) (column : Nat) : Option Nat :=
  ((Tableau.constraintRows b.tableau).foldl (betterRow b column) none).map Prod.fst

/-! ## Basic columns -/

/-- Makes a column basic in the row chosen for it, if that row has no basic column. -/
def enter (choose : Board τ α → Nat → Option Nat) (r : Run τ α) (column : Nat) : Run τ α :=
  match choose r.toBoard column with
  | some row => if (r.basic row).isNone then r.pivot .start row column else r
  | none => r

/-- Enters the columns with a single positive value, slacks first since they come last. -/
def enterSingles (r : Run τ α) : Run τ α :=
  (List.range r.nrVariables).reverse.foldl (enter fun b => singlePositiveRow b.tableau) r

/-- Enters the columns that are not basic yet, as long as the ratio test picks an empty row. -/
def enterOthers (r : Run τ α) : Run τ α :=
  ((List.range r.nrVariables).filter fun column => !r.basis.contains (some column)).foldl
    (enter ratioRow) r

/-- Gives a row without basic column an artificial one. -/
def addArtificial (r : Run τ α) (row : Nat) : Run τ α :=
  if (r.basic row).isNone then
    let column := Tableau.nrColumns r.tableau
    { r with
      tableau := Tableau.set (Tableau.addColumn r.tableau) row column 1
      basis := r.basis.set (row - 1) (some column) }
  else
    r

def addArtificials (r : Run τ α) : Run τ α :=
  let missing := r.basis.countP (·.isNone)
  let r := (List.range' 1 r.basis.length).foldl addArtificial r
  if missing = 0 then r else r.note (.artificialsAdded missing)

def chooseBasis (r : Run τ α) : Run τ α :=
  (enterOthers (enterSingles r)).addArtificials.note .basisFound

end Run

end LinProg
