import LinProg.Tableau.Basic

/-!
# Columnar tableau

Values are stored column by column.  Columns of zeros and unit vectors, which is what basic columns
are, are kept as a symbol; a pivot never touches the other basic columns.  A unit vector is spelled
out when one of its values changes.
-/

namespace LinProg

inductive Column (α : Type) where
  | zero
  /-- One in the given row, zero elsewhere. -/
  | unit (one : Nat)
  /-- One value per row. -/
  | stored (values : Array α)
  deriving DecidableEq, Repr

namespace Column

variable {α : Type} [Scalar α]

def get (c : Column α) (row : Nat) : α :=
  match c with
  | zero => 0
  | unit one => if one = row then 1 else 0
  | stored values => values.getD row 0

/-- The first `height` values of a column. -/
def values (c : Column α) (height : Nat) : Array α := Array.ofFn fun i : Fin height => c.get i

/-- The column with these values, as a symbol if possible. -/
def ofValues (values : Array α) : Column α :=
  match (List.range values.size).filter fun i => !Scalar.isZero (values.getD i 0) with
  | [] => zero
  | [one] => if Scalar.isOne (values.getD one 0) then unit one else stored values
  | _ => stored values

/-- Whether the column is kept as the unit vector of a row. -/
def isUnitAt (c : Column α) (row : Nat) : Bool :=
  match c with
  | unit one => one = row
  | _ => false

/-- Spells out the unit vector of a row. -/
def expandAt (c : Column α) (height row : Nat) : Column α :=
  if c.isUnitAt row then stored (c.values height) else c

/-- Whether a symbol stays right if a value is written. -/
def agrees (c : Column α) (row : Nat) (value : α) : Bool :=
  match c with
  | zero => Scalar.isZero value
  | unit one => if one = row then Scalar.isOne value else Scalar.isZero value
  | stored _ => false

/-- Writes one value. -/
def set (c : Column α) (height row : Nat) (value : α) : Column α :=
  if c.agrees row value then c
  else
    match c with
    | zero =>
      if Scalar.isOne value then unit row
      else stored ((c.values height).setIfInBounds row value)
    | unit _ => stored ((c.values height).setIfInBounds row value)
    | stored values => stored (values.setIfInBounds row value)

/-- What becomes of the values of another column when a pivot is made in a row.  Rows where the
pivot column is zero are left alone. -/
def eliminate (row : Nat) (pivot : α) (pivotColumn : Nat → α) (values : Array α) : Array α :=
  let value := values.getD row 0
  if Scalar.isZero value then values
  else
    let p := if Scalar.isOne pivot then value else value / pivot
    values.mapIdx fun i value =>
      let factor := pivotColumn i
      if i = row then p
      else if Scalar.isZero factor then value
      else Scalar.settle (value - factor * p)

/-- Another column after a pivot in a row. -/
def pivoted (c : Column α) (height row : Nat) (pivot : α) (pivotColumn : Column α) : Column α :=
  match c.expandAt height row with
  | stored values => stored (eliminate row pivot pivotColumn.get values)
  | other => other

def negateAt (c : Column α) (height row : Nat) : Column α :=
  match c.expandAt height row with
  | stored values => stored (values.modify row (- ·))
  | other => other

/-- The column without one of its values. -/
def eraseRow (c : Column α) (row : Nat) : Column α :=
  match c with
  | zero => zero
  | unit one => if one = row then zero else if row < one then unit (one - 1) else unit one
  | stored values => stored (values.eraseIdxIfInBounds row)

end Column

/-- Columns of `height` values each. -/
structure Columnar (α : Type) where
  columns : Array (Column α)
  height : Nat
  deriving DecidableEq, Repr

namespace Columnar

variable {α : Type} [Scalar α]

def ofRows (rows : List (List α)) : Columnar α where
  columns := Array.ofFn fun j : Fin (rows.head?.getD []).length =>
    .ofValues (rows.map fun values => values.getD j 0).toArray
  height := rows.length

def column (t : Columnar α) (j : Nat) : Column α := t.columns.getD j .zero

def get (t : Columnar α) (i j : Nat) : α := if i < t.height then (t.column j).get i else 0

def set (t : Columnar α) (i j : Nat) (value : α) : Columnar α :=
  if i < t.height then { t with columns := t.columns.modify j fun c => c.set t.height i value }
  else t

def pivot (t : Columnar α) (row column : Nat) : Columnar α :=
  let p := t.get row column
  if Scalar.isZero p then t
  else
    { t with
      columns := t.columns.mapIdx fun j c =>
        if j = column then .unit row else c.pivoted t.height row p (t.column column) }

def negateRow (t : Columnar α) (row : Nat) : Columnar α :=
  { t with columns := t.columns.map fun c => c.negateAt t.height row }

def removeRow (t : Columnar α) (row : Nat) : Columnar α :=
  if row < t.height then
    { t with columns := t.columns.map (·.eraseRow row), height := t.height - 1 }
  else
    t

def addColumn (t : Columnar α) : Columnar α := { t with columns := t.columns.push .zero }

def truncateColumns (t : Columnar α) (width : Nat) : Columnar α :=
  { t with columns := t.columns.take width }

instance : Tableau (Columnar α) α where
  ofRows := ofRows
  nrRows := height
  nrColumns t := t.columns.size
  get := get
  set := set
  pivot := pivot
  negateRow := negateRow
  removeRow := removeRow
  addColumn := addColumn
  truncateColumns := truncateColumns

end Columnar

end LinProg
