import LinProg.Program.Linear

/-!
# Nodes of a search tree

A node holds the problem it stands for until that is solved, and the path of decisions that led to
it from the root.
-/

namespace LinProg

/-- Which child of its parent a node is. -/
inductive Side where
  /-- A binary variable is zero, or an integer one is bounded from above. -/
  | left
  /-- A binary variable is one, or an integer one is bounded from below. -/
  | right
  deriving DecidableEq, Repr

def Side.letter : Side → String
  | left => "L"
  | right => "R"

/-- A decision, with the variable it eliminates and its value if it eliminates one. -/
structure Decision (α : Type) where
  side : Side
  fixing : Option (Nat × α)

structure Node (α : Type) (n : Nat) where
  /-- Missing once it was taken. -/
  problem : Option (LinearProgram α n)
  /-- The latest decision comes first. -/
  path : List (Decision α)

namespace Node

variable {α : Type} {n : Nat}

def root (lp : LinearProgram α n) : Node α n := ⟨some lp, []⟩

/-- The node one decision further, with a problem of its own. -/
def child (parent : Node α n) (decision : Decision α) (lp : LinearProgram α n) : Node α n :=
  ⟨some lp, decision :: parent.path⟩

/-- The problem, and the node without it. -/
def takeProblem (node : Node α n) : Option (LinearProgram α n) × Node α n :=
  (node.problem, { node with problem := none })

/-- The number of decisions. -/
def level (node : Node α n) : Nat := node.path.length

/-- Which child it is; none for the root. -/
def side? (node : Node α n) : Option Side := node.path.head?.map (·.side)

/-- The eliminated variables with their values, from this node up to the root. -/
def fixings (node : Node α n) : List (Nat × α) := node.path.filterMap (·.fixing)

/-- The levels on the way from the root, each with the side that was taken. -/
def name (node : Node α n) : String :=
  let steps := node.path.reverse.zipIdx.map fun (d, i) => s!"-{i + 1}{d.side.letter}"
  "0" ++ String.join steps

end Node

end LinProg
