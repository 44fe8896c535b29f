import LinProg.Number.Decimal

/-!
# What can be wrong with the description of a program

Only the construction of a program can fail; solving one can't.  Infeasible and unbounded programs
are consistent.
-/

namespace LinProg

/-- The sets of variables that a program distinguishes. -/
inductive VariableKind where
  | free
  | integer
  | binary
  deriving DecidableEq, Repr

def VariableKind.text : VariableKind → String
  | free => "free"
  | integer => "integer"
  | binary => "binary"

/-- The parts of a description. -/
inductive Part where
  | cost
  | matrix
  | rightHandSide
  | relations
  | constant
  deriving DecidableEq, Repr

def Part.text : Part → String
  | cost => "c"
  | matrix => "A"
  | rightHandSide => "b"
  | relations => "constraint types"
  | constant => "constant"

/-- Why a description is refused. -/
inductive Inconsistency where
  /-- A part with one value per row has another length than the matrix has rows. -/
  | rowCount (part : Part) (length nrRows : Nat)
  /-- A matrix row (counted from 1) has another length than there are variables. -/
  | columnCount (row length nrVariables : Nat)
  /-- A variable index (counted from 1) refers to no variable. -/
  | variableIndex (kind : VariableKind) (index nrVariables : Nat)
  /-- A part has a value that is no number. -/
  | notFinite (part : Part) (value : Float)

def Inconsistency.message : Inconsistency → String
  | rowCount part length nrRows =>
    s!"{part.text} has length {length}, but the constraint matrix has {nrRows} rows"
  | columnCount row length nrVariables =>
    s!"row {row} of the constraint matrix has {length} coefficients, "
      ++ s!"but there are {nrVariables} variables"
  | variableIndex kind index nrVariables =>
    s!"{kind.text} variable index {index} is outside of the range 1..={nrVariables}"
  | notFinite part value =>
    s!"{part.text} contains the non-finite value {Binary64.text value}"

end LinProg
