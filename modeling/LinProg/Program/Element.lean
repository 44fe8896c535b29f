import LinProg.Number.Scalar

/-!
# Relations, bounds and directions of a linear program
-/

namespace LinProg

/-- How the two sides of a constraint relate. -/
inductive Relation where
  | equal
  | atLeast
  | atMost
  deriving DecidableEq, Repr

namespace Relation

def text : Relation → String
  | equal => "="
  | atLeast => ">="
  | atMost => "<="

/-- Coefficient of the nonnegative variable that turns the row into an equation: `+1` takes up what
is missing, `-1` takes away what is too much. -/
def slack? {α : Type} [One α] [Neg α] : Relation → Option α
  | equal => none
  | atLeast => some (-1)
  | atMost => some 1

/-- An inequality gets a slack column in standard form. -/
def isInequality : Relation → Bool
  | equal => false
  | _ => true

end Relation

/-- On which side a bound confines a variable. -/
inductive BoundSide where
  | lower
  | upper
  deriving DecidableEq, Repr

/-- The relation of the row that states the bound. -/
def BoundSide.relation : BoundSide → Relation
  | lower => .atLeast
  | upper => .atMost

/-- Direction of optimization. -/
inductive Objective where
  | maximize
  | minimize
  deriving DecidableEq, Repr

namespace Objective

/-- Without further notice a program is minimized. -/
instance : Inhabited Objective := ⟨minimize⟩

def text : Objective → String
  | maximize => "max"
  | minimize => "min"

/-- Whether `candidate` is strictly better than `incumbent`. -/
def improves {α : Type} [Scalar α] : Objective → (candidate incumbent : α) → Bool
  | maximize, candidate, incumbent => Scalar.less incumbent candidate
  | minimize, candidate, incumbent => Scalar.less candidate incumbent

end Objective

end LinProg
