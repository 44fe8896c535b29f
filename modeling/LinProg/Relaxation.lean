import LinProg.Number.Instances
import LinProg.Program.Linear
import LinProg.Settings
import LinProg.Simplex.Text
import LinProg.Tableau.Columnar
import LinProg.Tableau.Dense

/-!
# Solving linear programs

A linear program is brought into standard form, solved on the tableau that the settings ask for, and
the answer is brought back to its variables.
-/

namespace LinProg

namespace LinearProgram

variable {n : Nat}

/-- The standard form with its numbers read as tableau values. -/
def standardValues {α : Type} [Scalar α] (lp : LinearProgram Float n) :
    StandardForm α lp.nrColumns :=
  lp.standardize.map Scalar.ofFloat

/-- The simplex method on a tableau `τ` after it solved the standard form. -/
def simplex (τ : Type) {α : Type} [Tableau τ α] [Scalar α] (settings : Settings)
    (lp : LinearProgram Float n) : Simplex τ α :=
  (Simplex.new lp.standardValues .largestCoefficient settings.cyclingThreshold
    settings.precision).solve

/-- The solution that the simplex method has found, in terms of the program's variables. -/
def solutionOf {τ α : Type} (settings : Settings) (lp : LinearProgram Float n)
    (s : Simplex τ α) : Solution Float :=
  if s.run.state = .solved then
    let round := Binary64.roundToPlaces settings.precision
    let max := match lp.objective with
      | .maximize => s.report.max
      | .minimize => -s.report.max
    let z : Vector Float lp.nrColumns := Vector.ofFn fun j => s.report.x.getD j.val 0
    { state := .solved
      objective := lp.objective
      objectiveValue := some (round (lp.constant + max))
      x := (lp.restore round z).toList
      iterations := s.run.iterations
      reducedCost := s.report.reducedCost.take n
      shadowPrice := s.report.shadowPrice }
  else
    .unsolved s.run.state lp.objective n s.run.iterations

/-- Told whenever a program is brought into standard form. -/
def standardMessages (v : Verbosity) (lp : LinearProgram Float n) : List Message :=
  v.tell .trace fun _ =>
    s!"Standard form of {lp.nrConstraints} rows and {lp.nrColumns} columns, "
      ++ s!"{lp.free.members.length} free"

/-- Solves on a tableau `τ`, and tells about it. -/
def solveOn (τ : Type) {α : Type} [Tableau τ α] [Scalar α] (settings : Settings) (v : Verbosity)
    (lp : LinearProgram Float n) : Solution Float × List Message :=
  let s := lp.simplex τ settings
  (lp.solutionOf settings s, lp.standardMessages v ++ s.run.messages v)

/-- Solves on the tableau that the settings ask for. -/
def solve (settings : Settings) (v : Verbosity) (lp : LinearProgram Float n) :
    Solution Float × List Message :=
  match settings.backend with
  | .double => lp.solveOn (Dense Float) settings v
  | .rational => lp.solveOn (Dense Rat) settings v
  | .revised => lp.solveOn (Columnar Float) settings v

/-- The same with counts of 64 bits, which are too few for some settings. -/
def solve? (settings : Settings) (v : Verbosity) (lp : LinearProgram Float n) :
    Option (Solution Float × List Message) :=
  Option.guard
    (fun (solution, _) =>
      CyclingGuard.countsFit (max 1 settings.cyclingThreshold) solution.iterations)
    (lp.solve settings v)

end LinearProgram

end LinProg
