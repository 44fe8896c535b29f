import LinProg.Program.Standard
import LinProg.Proofs.Number.Exact
import Mathlib.Algebra.BigOperators.Fin
import Mathlib.Algebra.Order.BigOperators.Group.Finset

/-!
# Points of programs

What it means that a point satisfies a program, and what a program is worth there.  Points are
functions on the variables; the numbers of a program are exact.
-/

namespace LinProg

variable {n : Nat}

def dot (row : Vector Rat n) (x : Fin n → Rat) : Rat := ∑ j, row.get j * x j

def Relation.Holds : Relation → Rat → Rat → Prop
  | equal, a, b => a = b
  | atLeast, a, b => b ≤ a
  | atMost, a, b => a ≤ b

instance : ∀ (r : Relation) (a b : Rat), Decidable (r.Holds a b)
  | .equal, a, b => inferInstanceAs (Decidable (a = b))
  | .atLeast, a, b => inferInstanceAs (Decidable (b ≤ a))
  | .atMost, a, b => inferInstanceAs (Decidable (a ≤ b))

def Constraint.Holds (c : Constraint Rat n) (x : Fin n → Rat) : Prop :=
  c.relation.Holds (dot c.coefficients x) c.rhs

instance (c : Constraint Rat n) (x : Fin n → Rat) : Decidable (c.Holds x) :=
  inferInstanceAs (Decidable (c.relation.Holds _ _))

def Equation.Holds (e : Equation Rat n) (x : Fin n → Rat) : Prop := dot e.coefficients x = e.rhs

/-- A candidate that doesn't improve on an incumbent is no better in the direction of the
objective. -/
def Objective.NoBetter (objective : Objective) (candidate incumbent : Rat) : Prop :=
  objective.improves candidate incumbent = false

namespace Objective

theorem noBetter_maximize {a b : Rat} : maximize.NoBetter a b ↔ a ≤ b := by
  simp [NoBetter, improves]

theorem noBetter_minimize {a b : Rat} : minimize.NoBetter a b ↔ b ≤ a := by
  simp [NoBetter, improves]

theorem NoBetter.refl (objective : Objective) (a : Rat) : objective.NoBetter a a := by
  cases objective
  · exact noBetter_maximize.2 le_rfl
  · exact noBetter_minimize.2 le_rfl

theorem NoBetter.trans {objective : Objective} {a b c : Rat} (hab : objective.NoBetter a b)
    (hbc : objective.NoBetter b c) : objective.NoBetter a c := by
  cases objective
  · exact noBetter_maximize.2 ((noBetter_maximize.1 hab).trans (noBetter_maximize.1 hbc))
  · exact noBetter_minimize.2 ((noBetter_minimize.1 hbc).trans (noBetter_minimize.1 hab))

theorem NoBetter.of_improves {objective : Objective} {a b : Rat}
    (h : objective.improves a b = true) : objective.NoBetter b a := by
  cases objective
  · exact noBetter_maximize.2 (by simpa [improves] using le_of_lt (by simpa [improves] using h))
  · exact noBetter_minimize.2 (by simpa [improves] using le_of_lt (by simpa [improves] using h))

end Objective

instance (s : VariableSet n) (v : Fin n) : Decidable (v ∈ s.members) := inferInstance

namespace LinearProgram

def Satisfies (lp : LinearProgram Rat n) (x : Fin n → Rat) : Prop := ∀ c ∈ lp.constraints, c.Holds x

instance (lp : LinearProgram Rat n) (x : Fin n → Rat) : Decidable (lp.Satisfies x) :=
  inferInstanceAs (Decidable (∀ c ∈ lp.constraints, c.Holds x))

structure Feasible (lp : LinearProgram Rat n) (x : Fin n → Rat) : Prop where
  rows : ∀ c ∈ lp.constraints, c.Holds x
  signs : ∀ j, j ∉ lp.free.members → 0 ≤ x j

instance (lp : LinearProgram Rat n) (x : Fin n → Rat) : Decidable (lp.Feasible x) :=
  decidable_of_iff
    ((∀ c ∈ lp.constraints, c.Holds x) ∧ ∀ j, j ∉ lp.free.members → 0 ≤ x j)
    ⟨fun h => ⟨h.1, h.2⟩, fun h => ⟨h.rows, h.signs⟩⟩

theorem feasible_iff {lp : LinearProgram Rat n} {x : Fin n → Rat} :
    lp.Feasible x ↔ lp.Satisfies x ∧ ∀ j, j ∉ lp.free.members → 0 ≤ x j :=
  ⟨fun h => ⟨h.rows, h.signs⟩, fun h => ⟨h.1, h.2⟩⟩

def value (lp : LinearProgram Rat n) (x : Fin n → Rat) : Rat := lp.constant + dot lp.cost x

structure Optimal (lp : LinearProgram Rat n) (x : Fin n → Rat) : Prop where
  feasible : lp.Feasible x
  best : ∀ y, lp.Feasible y → lp.objective.NoBetter (lp.value y) (lp.value x)

end LinearProgram

namespace StandardForm

structure Feasible (p : StandardForm Rat n) (x : Fin n → Rat) : Prop where
  rows : ∀ e ∈ p.equations, e.Holds x
  nonneg : ∀ j, 0 ≤ x j

def value (p : StandardForm Rat n) (x : Fin n → Rat) : Rat := dot p.cost x

structure Optimal (p : StandardForm Rat n) (x : Fin n → Rat) : Prop where
  feasible : p.Feasible x
  best : ∀ y, p.Feasible y → p.value y ≤ p.value x

/-- The objective exceeds every bound on feasible points. -/
def IsUnbounded (p : StandardForm Rat n) : Prop := ∀ bound, ∃ x, p.Feasible x ∧ bound < p.value x

end StandardForm

end LinProg
