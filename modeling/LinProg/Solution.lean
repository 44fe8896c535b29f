import LinProg.Program.Element

/-!
# Solutions

The outcome of solving a program.  Values mean something only when the state is `solved`; otherwise
there is no objective value and the dual values are missing.
-/

namespace LinProg

/-- Where a solver stands. -/
inductive State where
  | zero
  | solving
  | solved
  | unbounded
  | noSolution
  deriving DecidableEq, Repr

def State.text : State → String
  | zero => "zero"
  | solving => "solving"
  | solved => "solved"
  | unbounded => "unbounded"
  | noSolution => "no solution"

structure Solution (α : Type) where
  state : State
  objective : Objective
  objectiveValue : Option α
  x : List α
  iterations : Nat
  /-- One per variable, if solved. -/
  reducedCost : List α
  /-- One per constraint, if solved. -/
  shadowPrice : List α

namespace Solution

variable {α : Type}

def isSolved (s : Solution α) : Bool := s.state = .solved

variable [Scalar α]

/-- An outcome without values. -/
def unsolved (state : State) (objective : Objective) (nrVariables iterations : Nat) :
    Solution α where
  state := state
  objective := objective
  objectiveValue := none
  x := List.replicate nrVariables 0
  iterations := iterations
  reducedCost := []
  shadowPrice := []

/-- The text of a value that may be missing. -/
def valueText : Option α → String
  | some value => Scalar.text value
  | none => "NaN"

/-- Whether the objective value is strictly better; a missing value is neither better nor worse. -/
def improves (objective : Objective) (candidate incumbent : Solution α) : Bool :=
  match candidate.objectiveValue, incumbent.objectiveValue with
  | some a, some b => objective.improves a b
  | _, _ => false

def text (s : Solution α) : String :=
  let head := s!"{s.state.text} after {s.iterations} iterations"
  if s.isSolved then
    let point := ", ".intercalate (s.x.map Scalar.text)
    s!"{head}: {s.objective.text} {valueText s.objectiveValue} at x = ({point})"
  else
    head

end Solution

end LinProg
