import LinProg.Program.Linear

/-!
# Standard form

A program in standard form maximizes `cost · z` over `z ≥ 0` subject to equations.  `standardize`
brings a linear program into it: minimization becomes maximization of the negated cost, a free
variable becomes the difference of two nonnegative ones, and an inequality gets a slack variable.
The columns are the variables of the program, then the negative parts of the free ones, then the
slacks.
-/

namespace LinProg

/-- One row: `coefficients · z = rhs`. -/
structure Equation (α : Type) (n : Nat) where
  coefficients : Vector α n
  rhs : α

/-- Maximize `cost · z` subject to the equations and `z ≥ 0`. -/
structure StandardForm (α : Type) (n : Nat) where
  cost : Vector α n
  equations : List (Equation α n)

def StandardForm.map {α β : Type} {n : Nat} (f : α → β) (p : StandardForm α n) :
    StandardForm β n where
  cost := p.cost.map f
  equations := p.equations.map fun e => ⟨e.coefficients.map f, f e.rhs⟩

namespace LinearProgram

variable {α : Type} {n : Nat} (lp : LinearProgram α n)

/-- How many rows need a slack variable. -/
def nrSlacks : Nat := lp.constraints.countP (·.relation.isInequality)

/-- How many columns the standard form has. -/
abbrev nrColumns : Nat := n + lp.free.members.length + lp.nrSlacks

variable [Scalar α]

/-- A row with the columns of the negative parts, which repeat those of their variables with the
other sign. -/
def split (row : Vector α n) : Vector α (n + lp.free.members.length) :=
  row ++ Vector.ofFn fun k : Fin lp.free.members.length => -row.get (lp.free.members.get k)

/-- The slack part of a row: `slack` in column `k`, zero elsewhere. -/
def slackPart (width k : Nat) (slack : Option α) : Vector α width :=
  match slack with
  | none => Vector.replicate width 0
  | some s => (Vector.replicate width 0).setIfInBounds k s

/-- The rows of the standard form, the next free slack column being `k`. -/
def equationsFrom : Nat → List (Constraint α n) → List (Equation α lp.nrColumns)
  | _, [] => []
  | k, c :: rest =>
    let slack : Option α := c.relation.slack?
    ⟨lp.split c.coefficients ++ slackPart lp.nrSlacks k slack, c.rhs⟩
      :: equationsFrom (if slack.isSome then k + 1 else k) rest

def standardCost : Vector α lp.nrColumns :=
  let cost := match lp.objective with
    | .maximize => lp.cost
    | .minimize => lp.cost.map (- ·)
  lp.split cost ++ Vector.replicate lp.nrSlacks (0 : α)

def standardize : StandardForm α lp.nrColumns where
  cost := lp.standardCost
  equations := lp.equationsFrom 0 lp.constraints

/-- The values of the variables of the program.  The difference that makes up a free variable goes
through `round`. -/
def restore {β : Type} [Sub β] (round : β → β) (z : Vector β lp.nrColumns) : Vector β n :=
  Vector.ofFn fun v =>
    let positive := z.get ⟨v, by simp only [nrColumns]; omega⟩
    let k := lp.free.members.idxOf v
    if h : k < lp.free.members.length then
      round (positive - z.get ⟨n + k, by simp only [nrColumns]; omega⟩)
    else
      positive

end LinearProgram

end LinProg
