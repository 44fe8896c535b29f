import LinProg.Branching.Search
import LinProg.Program.VariableSet

/-!
# Mixed integer programs

A linear program some of whose variables have to be integers, or zero or one.  Binary variables are
branched on first.  At the root each of them is bounded by one, unless a row of the program implies
that bound.
-/

namespace LinProg

structure MixedIntegerProgram (α : Type) (n : Nat) where
  relaxation : LinearProgram α n
  integers : VariableSet n
  binaries : VariableSet n

namespace MixedIntegerProgram

variable {α : Type} {n : Nat}

/-- The program with these integer and binary variables, which are counted from 1. -/
def ofIndices? (lp : LinearProgram α n) (integers binaries : List Nat) :
    Except Inconsistency (MixedIntegerProgram α n) := do
  let integers ← VariableSet.ofIndices? .integer integers
  let binaries ← VariableSet.ofIndices? .binary binaries
  return ⟨lp, integers, binaries⟩

/-- The binary variables, then the other integer ones. -/
def branchingOrder (p : MixedIntegerProgram α n) : List (Fin n) :=
  p.binaries.members ++ p.integers.members.filter fun v => !p.binaries.members.contains v

section Root

variable [Scalar α] (p : MixedIntegerProgram α n)

/-- Whether a coefficient keeps a row from bounding the other terms: it is negative, or belongs to a
free variable. -/
def spoilsBound (row : Vector α n) (v : Fin n) : Bool :=
  Scalar.isNegative (row.get v)
    || (!Scalar.isZero (row.get v) && p.relaxation.free.members.contains v)

/-- Whether a row reads `x_v + … ≤ 1` or `x_v + … = 1` with nonnegative terms only. -/
def isUpperBound (v : Fin n) (c : Constraint α n) : Bool :=
  Scalar.isOne c.rhs && Scalar.isOne (c.coefficients.get v) && c.relation ≠ .atLeast
    && !(List.finRange n).any (p.spoilsBound c.coefficients)

/-- Whether some row implies that a binary variable is at most one. -/
def hasUpperBound (v : Fin n) : Bool := p.relaxation.constraints.any (p.isUpperBound v)

/-- The binary variables that need a row of their own. -/
def unbounded : List (Fin n) := p.binaries.members.filter fun v => !p.hasUpperBound v

/-- The relaxation with all binary variables bounded by one. -/
def root : LinearProgram α n :=
  p.unbounded.foldl (fun lp v => lp.addBound v .atMost 1) p.relaxation

def rootMessages (v : Verbosity) : List Message :=
  if p.unbounded.isEmpty then []
  else
    v.tell .debug fun _ =>
      let names := ", ".intercalate (p.unbounded.map fun v => s!"x{v.val + 1}")
      s!"Added upper bounds for binary variables {names}"

end Root

section Solve

variable [Integral α] (p : MixedIntegerProgram α n)

/-- The search for integral solutions, given how relaxations are solved. -/
def search (relax : LinearProgram α n → Solution α × List Message) : Search α n where
  objective := p.relaxation.objective
  order := p.branchingOrder.map (·.val)
  nrBinary := p.binaries.members.length
  relax := relax

/-- The best solution with integral values; its iterations are the nodes that were visited. -/
def solveBy (φ : Type) [Frontier φ (Node α n)]
    (relax : LinearProgram α n → Solution α × List Message) (v : Verbosity) :
    Solution α × List Message :=
  let s := p.search relax
  let e := s.explore φ v (.root p.root)
  let solution := s.finish e.state n p.relaxation.nrConstraints
  let finished := v.tell .debug fun _ => s!"Branch and bound finished: {solution.text}"
  (solution, p.rootMessages v ++ e.messages v ++ finished)

end Solve

end MixedIntegerProgram

end LinProg
