import LinProg.Program.Standard

/-!
# Descriptions of programs

A program is described by a matrix of coefficients and vectors that have to fit it.  Building a
program reports the first thing that doesn't fit; a program that was built is consistent by its
type.
-/

namespace LinProg

namespace Inconsistency

/-- Refuses a part that has a value which is no number. -/
def checkFinite (part : Part) (values : List Float) : Except Inconsistency Unit :=
  match values.find? (!·.isFinite) with
  | some value => .error (.notFinite part value)
  | none => .ok ()

/-- The rows, counted from `row`, all of width `n`. -/
def checkRows (n : Nat) : Nat → List (List Float) → Except Inconsistency (List (Vector Float n))
  | _, [] => .ok []
  | row, values :: rest =>
    if h : values.length = n then
      (checkRows n (row + 1) rest).map (⟨values.toArray, by simpa using h⟩ :: ·)
    else
      .error (.columnCount row values.length n)

/-- The rows of a matrix that fits a cost vector and right hand sides, all values finite. -/
def checkDimensions (cost : List Float) (matrix : List (List Float)) (rhs : List Float) :
    Except Inconsistency (List (Vector Float cost.length)) := do
  if rhs.length ≠ matrix.length then
    throw (.rowCount .rightHandSide rhs.length matrix.length)
  let rows ← checkRows cost.length 1 matrix
  checkFinite .cost cost
  checkFinite .matrix matrix.flatten
  checkFinite .rightHandSide rhs
  return rows

end Inconsistency

open Inconsistency

/-- The standard form with these parts. -/
def StandardForm.ofParts? (cost : List Float) (matrix : List (List Float)) (rhs : List Float) :
    Except Inconsistency (StandardForm Float cost.length) := do
  let rows ← checkDimensions cost matrix rhs
  return ⟨⟨cost.toArray, by simp⟩, rows.zipWith Equation.mk rhs⟩

/-- A linear program as it is written down; variables are counted from 1. -/
structure Description where
  objective : Objective
  constant : Float
  cost : List Float
  matrix : List (List Float)
  relations : List Relation
  rhs : List Float
  free : List Nat

/-- The program that is described. -/
def Description.program? (d : Description) :
    Except Inconsistency (LinearProgram Float d.cost.length) := do
  let rows ← checkDimensions d.cost d.matrix d.rhs
  if d.relations.length ≠ d.matrix.length then
    throw (.rowCount .relations d.relations.length d.matrix.length)
  checkFinite .constant [d.constant]
  let free ← VariableSet.ofIndices? .free d.free
  return {
    objective := d.objective
    constant := d.constant
    cost := ⟨d.cost.toArray, by simp⟩
    constraints := (rows.zip (d.relations.zip d.rhs)).map fun (row, relation, rhs) =>
      ⟨row, relation, rhs⟩
    free }

end LinProg
