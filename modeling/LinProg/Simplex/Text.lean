import LinProg.Journal
import LinProg.Number.Decimal
import LinProg.Simplex.Solve

/-!
# Texts about a run

A tableau as a table, and the messages that tell a run.
-/

namespace LinProg

/-! ## Alignment -/

def spaces (count : Nat) : String := String.ofList (List.replicate count ' ')

/-- Fills up with spaces on the left. -/
def alignRight (width : Nat) (s : String) : String := spaces (width - s.length) ++ s

/-- Fills up with spaces on both sides, an odd one on the right. -/
def center (width : Nat) (s : String) : String :=
  let missing := width - s.length
  spaces (missing / 2) ++ s ++ spaces (missing - missing / 2)

namespace Board

variable {τ α : Type} [Tableau τ α] [Scalar α]

def labelWidth : Nat := 8

def cellWidth : Nat := 10

/-- Longer numbers are cut off. -/
def cellLength : Nat := 8

/-- A table line: the right hand side, a bar, then the other columns. -/
def line (b : Board τ α) (label : String) (cell : Nat → String) : String :=
  let columns := (List.range (Tableau.nrColumns b.tableau)).filter fun column => column ≠ b.rhs
  let cells := String.join (columns.map fun column => center cellWidth (cell column))
  s!"{label}{center cellWidth (cell b.rhs)}|{cells}\n"

def headerLine (b : Board τ α) : String :=
  b.line (spaces labelWidth) fun column => if column = b.rhs then "b" else toString column

def separatorLine (b : Board τ α) : String :=
  let length := labelWidth + Tableau.nrColumns b.tableau * cellWidth + 1
  String.ofList (List.replicate length '-') ++ "\n"

def rowLabel (b : Board τ α) (row : Nat) : String :=
  if row = 0 then "cost"
  else match b.basic row with
    | some column => toString column
    | none => "-"

def rowLine (b : Board τ α) (row : Nat) : String :=
  b.line (alignRight labelWidth (b.rowLabel row ++ "  |")) fun column =>
    String.ofList ((Scalar.text (Tableau.get b.tableau row column)).toList.take cellLength)

/-- The tableau with its basic columns. -/
def text (b : Board τ α) : String :=
  let rows := (List.range (Tableau.nrRows b.tableau)).map fun row =>
    if row = 0 then b.rowLine row ++ b.separatorLine else b.rowLine row
  s!"Tableau ({b.state.text}, {b.iterations} iterations):\n"
    ++ b.headerLine ++ b.separatorLine ++ String.join rows

end Board

namespace Entry

variable {τ α : Type} [Tableau τ α] [Scalar α]

/-- The name of a basic column that may be missing. -/
def basicText : Option Nat → String
  | some column => s!"Some({column})"
  | none => "None"

/-- What is told about an event. -/
def messages (v : Verbosity) (e : Entry τ α) : List Message :=
  let b := e.board
  match e.event with
  | .prepared | .artificialsDropped => []
  | .pivoted _ row column =>
    v.tell .trace fun _ => s!"Pivoted on ({row}, {column}):\n{b.text}"
  | .artificialsAdded count =>
    v.tell .debug fun _ => s!"Added {count} artificial variables"
  | .basisFound => v.tell .trace fun _ => s!"Initial basis:\n{b.text}"
  | .unboundedColumn column =>
    v.tell .debug fun _ => s!"Column {column} can be increased without bound"
  | .columnCycled column =>
    v.tell .warn fun _ =>
      s!"Cycling detected after {b.iterations} iterations, pivoting on column {column}"
  | .rowCycled row =>
    v.tell .warn fun _ =>
      s!"Cycling detected after {b.iterations} iterations, pivoting on row {row}"
  | .rowRemoved row => v.tell .debug fun _ => s!"Removing redundant row {row}"
  | .rowInfeasible row value basic =>
    v.tell .debug fun _ =>
      s!"Row {row} has value {Binary64.text value} for basic column {basicText basic}"
  | .finished =>
    v.tell .debug fun _ =>
      s!"Simplex finished as {b.state.text} after {b.iterations} iterations"

end Entry

/-- What is told about a run, from its beginning. -/
def Run.messages {τ α : Type} [Tableau τ α] [Scalar α] (v : Verbosity) (r : Run τ α) :
    List Message :=
  if v.isNone then [] else r.history.reverse.flatMap (Entry.messages v)

end LinProg
