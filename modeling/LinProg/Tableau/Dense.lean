import LinProg.Tableau.Basic

/-!
# Dense tableau

Every value is stored, row by row.  A row reads as zero beyond its end.  Columns that were cut off
may stay in the rows; they can't be read and are cleared when a column is added in their place.
-/

namespace LinProg

/-- Rows of which the first `width` values count. -/
structure Dense (α : Type) where
  rows : Array (Array α)
  width : Nat
  deriving DecidableEq, Repr

namespace Dense

variable {α : Type} [Scalar α]

def ofRows (rows : List (List α)) : Dense α where
  rows := (rows.map List.toArray).toArray
  width := (rows.head?.getD []).length

def row (t : Dense α) (i : Nat) : Array α := t.rows.getD i #[]

def get (t : Dense α) (i j : Nat) : α := if j < t.width then (t.row i).getD j 0 else 0

/-- The row with one value replaced, filled up with zeros in front of it if needed. -/
def write (values : Array α) (j : Nat) (value : α) : Array α :=
  (values.rightpad (j + 1) 0).setIfInBounds j value

def set (t : Dense α) (i j : Nat) (value : α) : Dense α :=
  if j < t.width then { t with rows := t.rows.modify i fun values => write values j value } else t

/-- The pivot row divided by the pivot.  Zeros are left alone. -/
def normalize (width column : Nat) (pivot : α) (values : Array α) : Array α :=
  if Scalar.isOne pivot then values
  else
    Array.ofFn fun j : Fin width =>
      let value := values.getD j 0
      if Scalar.isZero value then value
      else if j.val = column then 1
      else value / pivot

/-- A row without its share of the pivot column, given the normalized pivot row.  Columns where the
pivot row is zero are left alone. -/
def eliminate (width column : Nat) (pivotRow values : Array α) : Array α :=
  let factor := values.getD column 0
  if Scalar.isZero factor then values
  else
    Array.ofFn fun j : Fin width =>
      let value := values.getD j 0
      let p := pivotRow.getD j 0
      if Scalar.isZero p then value
      else if j.val = column then 0
      else Scalar.settle (value - factor * p)

def pivot (t : Dense α) (row column : Nat) : Dense α :=
  let p := t.get row column
  if Scalar.isZero p then t
  else
    let pivotRow := normalize t.width column p (t.row row)
    { t with
      rows := t.rows.mapIdx fun i values =>
        if i = row then pivotRow else eliminate t.width column pivotRow values }

def negateRow (t : Dense α) (row : Nat) : Dense α :=
  { t with
    rows := t.rows.modify row fun values => Array.ofFn fun j : Fin t.width => -values.getD j 0 }

def removeRow (t : Dense α) (row : Nat) : Dense α :=
  { t with rows := t.rows.eraseIdxIfInBounds row }

def addColumn (t : Dense α) : Dense α where
  rows := t.rows.map fun values => values.setIfInBounds t.width 0
  width := t.width + 1

def truncateColumns (t : Dense α) (width : Nat) : Dense α := { t with width := min width t.width }

instance : Tableau (Dense α) α where
  ofRows := ofRows
  nrRows t := t.rows.size
  nrColumns := width
  get := get
  set := set
  pivot := pivot
  negateRow := negateRow
  removeRow := removeRow
  addColumn := addColumn
  truncateColumns := truncateColumns

end Dense

end LinProg
