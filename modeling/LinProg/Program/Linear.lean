import LinProg.Program.Element
import LinProg.Program.VariableSet

/-!
# Linear programs

A program over `n` variables optimizes `constant + cost · x` subject to one constraint per row.
Variables are nonnegative, except the free ones.  Variables are counted from 0 here and from 1 in
texts.
-/

namespace LinProg

/-- One row: `coefficients · x` relates to `rhs`. -/
structure Constraint (α : Type) (n : Nat) where
  coefficients : Vector α n
  relation : Relation
  rhs : α

structure LinearProgram (α : Type) (n : Nat) where
  objective : Objective
  constant : α
  cost : Vector α n
  constraints : List (Constraint α n)
  /-- Variables without sign restriction. -/
  free : VariableSet n

namespace Constraint

variable {α β : Type} {n : Nat}

def map (f : α → β) (c : Constraint α n) : Constraint β n where
  coefficients := c.coefficients.map f
  relation := c.relation
  rhs := f c.rhs

variable [Scalar α]

/-- Moves the term of a variable that has a fixed value to the right hand side. -/
def fix (c : Constraint α n) (v : Fin n) (value : α) : Constraint α n :=
  if Scalar.isZero (c.coefficients.get v) then c
  else
    { c with
      coefficients := c.coefficients.set v 0
      rhs := c.rhs - value * c.coefficients.get v }

/-- The row that confines a single variable. -/
def bound (v : Fin n) (relation : Relation) (rhs : α) : Constraint α n where
  coefficients := (Vector.replicate n 0).set v 1
  relation := relation
  rhs := rhs

end Constraint

namespace LinearProgram

variable {α β : Type} {n : Nat}

/-- The same program with other numbers. -/
def map (f : α → β) (lp : LinearProgram α n) : LinearProgram β n where
  objective := lp.objective
  constant := f lp.constant
  cost := lp.cost.map f
  constraints := lp.constraints.map (·.map f)
  free := lp.free

def nrConstraints (lp : LinearProgram α n) : Nat := lp.constraints.length

variable [Scalar α]

/-- Eliminates a variable by fixing it: its share moves to the constant and the right hand sides,
after which all its coefficients are zero. -/
def fix (lp : LinearProgram α n) (v : Fin n) (value : α) : LinearProgram α n :=
  { lp with
    constant := lp.constant + value * lp.cost.get v
    cost := lp.cost.set v 0
    constraints := lp.constraints.map (·.fix v value) }

/-- Appends the row `x_v (relation) rhs`. -/
def addBound (lp : LinearProgram α n) (v : Fin n) (relation : Relation) (rhs : α) :
    LinearProgram α n :=
  { lp with constraints := lp.constraints ++ [Constraint.bound v relation rhs] }

/-! ## Text -/

/-- A sum of terms, zero terms left out. -/
def termsText (coefficients : Vector α n) : String :=
  let terms := coefficients.toList.zipIdx.filter fun (c, _) => !Scalar.isZero c
  if terms.isEmpty then "0"
  else " + ".intercalate (terms.map fun (c, j) => s!"{Scalar.text c} x{j + 1}")

def rowText (c : Constraint α n) : String :=
  s!"  {termsText c.coefficients} {c.relation.text} {Scalar.text c.rhs}\n"

/-- The objective, then a line for each row, then the free variables if there are any. -/
def text (lp : LinearProgram α n) : String :=
  let head := s!"{lp.objective.text} {Scalar.text lp.constant} + {termsText lp.cost}\n"
  let rows := String.join (lp.constraints.map rowText)
  let names := ", ".intercalate (lp.free.members.map fun v => s!"x{v.val + 1}")
  head ++ rows ++ (if lp.free.members.isEmpty then "" else s!"  free: {names}\n")

end LinearProgram

end LinProg
