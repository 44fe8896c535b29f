import LinProg.Branching.MixedInteger
import LinProg.Branching.SharedSearch
import LinProg.Program.Description
import LinProg.Relaxation
import LinProg.Proofs.Tableau.Dense
import LinProg.Proofs.Program.Feasible
import LinProg.Proofs.Simplex.Equations
import LinProg.Proofs.Simplex.Canonical
import LinProg.Proofs.Simplex.Certificates
import LinProg.Proofs.Simplex.Start
import LinProg.Proofs.Simplex.Artificial
import LinProg.Proofs.Simplex.Rounds
import LinProg.Proofs.Simplex.Primal
import LinProg.Proofs.Simplex.Dual
import LinProg.Proofs.Number.Sign
import LinProg.Proofs.Simplex.Outcome
import LinProg.Proofs.Number.Notation
import LinProg.Proofs.Number.Decimal
import LinProg.Proofs.Program.Standard
import LinProg.Proofs.Simplex.Answer
import LinProg.Proofs.Relaxation
import LinProg.Proofs.Number.Denoting
import LinProg.Proofs.Number.Fields
import LinProg.Proofs.Number.Rounding
import LinProg.Proofs.Number.Double
import LinProg.Proofs.Program.Fixing
import LinProg.Proofs.Branching.Frontier
import LinProg.Proofs.Branching.Evaluation
import LinProg.Proofs.Branching.Progress
import LinProg.Proofs.Branching.Exploration
import LinProg.Proofs.Branching.Workers
import LinProg.Proofs.Branching.AnyOrder
import LinProg.Proofs.Branching.MixedInteger
import LinProg.Proofs.Branching.Node
import LinProg.Proofs.Branching.Optimum
import LinProg.Proofs.Branching.Step
import LinProg.Proofs.Branching.Exactness
import LinProg.Proofs.Branching.Genuine
import LinProg.Proofs.Number.Ranked
import LinProg.Proofs.Branching.Tree
import LinProg.Proofs.Simplex.DualColumns
import LinProg.Proofs.Simplex.DualValues
import LinProg.Proofs.Program.Columns
import LinProg.Proofs.Duality
import LinProg.Proofs.Tableau.Shape
import LinProg.Proofs.Tableau.Columnar
import LinProg.Proofs.Tableau.Grid
import LinProg.Proofs.Simplex.Mapped
import LinProg.Proofs.Refinement
import LinProg.Proofs.Branching.Protocol
import LinProg.Proofs.Simplex.Guard
import LinProg.Proofs.Simplex.Kept
import LinProg.Proofs.Simplex.Termination
import LinProg.Proofs.Program.Equivalence
import LinProg.Proofs.Simplex.CanonicalRuns
import LinProg.Proofs.Simplex.Ascent
import LinProg.Proofs.Simplex.Repair
import LinProg.Proofs.Simplex.Redundancy
import LinProg.Proofs.Branching.Children
import LinProg.Proofs.Branching.Path
import LinProg.Proofs.Branching.Accounts
import LinProg.Proofs.Simplex.GuardHistory
import LinProg.Proofs.Tableau.Pivot
import LinProg.Proofs.Branching.Failure
import LinProg.Proofs.Number.Shortest
import LinProg.Proofs.Number.Coefficients
import LinProg.Proofs.Safety.Checked
import LinProg.Proofs.Safety.Fits
import LinProg.Proofs.Safety.Start
import LinProg.Proofs.Safety.Phases
import LinProg.Proofs.Safety.Numbers
import LinProg.Proofs.Safety.Solve
