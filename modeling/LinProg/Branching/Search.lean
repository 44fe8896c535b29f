import LinProg.Branching.Frontier
import LinProg.Branching.Node
import LinProg.Journal
import LinProg.Solution

/-!
# Branch and bound

A `Search` solves the relaxation of a node and decides what becomes of it: it is pruned, its
solution becomes the incumbent, or it is branched on.  How a relaxation is solved is a parameter.
`explore` visits the nodes of a tree one by one, in the order of a frontier.
-/

namespace LinProg

/-- What doesn't change during a search over programs of `n` variables. -/
structure Search (α : Type) (n : Nat) where
  objective : Objective
  /-- The variables to branch on, one per level. -/
  order : List Nat
  /-- The first levels branch on binary variables. -/
  nrBinary : Nat
  /-- Solves a relaxation, and tells about it. -/
  relax : LinearProgram α n → Solution α × List Message

/-- What a search knows so far. -/
structure SearchState (α : Type) where
  /-- The best solution with integral values. -/
  incumbent : Option (Solution α) := none
  /-- Whether some relaxation was unbounded. -/
  unbounded : Bool := false
  /-- Number of nodes that were visited. -/
  iterations : Nat := 0

/-- What becomes of a node. -/
inductive Verdict (α : Type) where
  /-- Its problem was taken before. -/
  | spent
  | unbounded
  | unsolved (state : State)
  | dominated (value best : Option α)
  | accepted (value : Option α)
  /-- There is no variable left to branch on, or no reason to. -/
  | leaf
  | branchedBinary (index : Nat)
  | branchedInteger (index : Nat) (value : α)
  /-- The order or an eliminated variable has no place in the solution. -/
  | unreadable

/-- A node with what came of its evaluation. -/
structure Visit (α : Type) (n : Nat) where
  node : Node α n
  /-- The relaxation that was solved; none if the node had lost its problem. -/
  problem : Option (LinearProgram α n)
  verdict : Verdict α
  /-- The nodes to visit in its place; none if the evaluation failed. -/
  children? : Option (List (Node α n))
  /-- What the search knows afterwards. -/
  state : SearchState α
  messages : List Message

/-! ## Texts -/

namespace Verdict

variable {α : Type} [Scalar α] {n : Nat}

def messages (v : Verbosity) (node : Node α n) (verdict : Verdict α) : List Message :=
  let tell (text : Unit → String) := v.tell .debug text
  match verdict with
  | spent | leaf | unreadable => []
  | unbounded => tell fun _ => s!"Node {node.name} is unbounded, stopping the search"
  | unsolved state => tell fun _ => s!"Node {node.name} pruned, relaxation has {state.text}"
  | dominated value best =>
    tell fun _ =>
      s!"Node {node.name} pruned, bound {Solution.valueText value} "
        ++ s!"doesn't improve on {Solution.valueText best}"
  | accepted value =>
    tell fun _ => s!"Node {node.name} accepted with objective value {Solution.valueText value}"
  | branchedBinary index =>
    tell fun _ => s!"Node {node.name} branches on binary x{index + 1}"
  | branchedInteger index value =>
    tell fun _ => s!"Node {node.name} branches on x{index + 1} = {Scalar.text value}"

end Verdict

namespace Visit

variable {α : Type} {n : Nat}

def failed (visit : Visit α n) : Bool := visit.children?.isNone

def children (visit : Visit α n) : List (Node α n) := visit.children?.getD []

/-- What is told about a visit, its failure included. -/
def report (v : Verbosity) (visit : Visit α n) : List Message :=
  if visit.failed then
    visit.messages ++ v.tell .error fun _ =>
      s!"Evaluating node {visit.node.name} failed, treating it as pruned"
  else
    visit.messages

end Visit

namespace Search

variable {α : Type} [Integral α] {n : Nat}

/-! ## Evaluation of a node -/

/-- The values of the variables in an order, up to the first one that is no integer; `none` if one
of them doesn't exist. -/
def isIntegralOn? (x : List α) : List Nat → Option Bool
  | [] => some true
  | index :: rest =>
    match x[index]? with
    | none => none
    | some value => if Integral.isIntegral value then isIntegralOn? x rest else some false

/-- A solution of a node's problem with the eliminated variables at their values. -/
def withFixings (node : Node α n) (solution : Solution α) : Solution α :=
  { solution with
    x := node.fixings.foldl (fun x (index, value) => x.set index value) solution.x }

/-- The same, unless one of the eliminated variables has no place in the solution. -/
def withFixings? (node : Node α n) (solution : Solution α) : Option (Solution α) :=
  if node.fixings.all fun (index, _) => index < solution.x.length then
    some (withFixings node solution)
  else
    none

/-- The children of a node that fix a binary variable at zero and at one. -/
def binaryChildren (node : Node α n) (lp : LinearProgram α n) (v : Fin n) : List (Node α n) :=
  [(Side.left, 0), (Side.right, 1)].map fun (side, value) =>
    node.child ⟨side, some (v.val, value)⟩ (lp.fix v value)

/-- The children of a node that bound an integer variable around its value. -/
def integerChildren (node : Node α n) (lp : LinearProgram α n) (v : Fin n) (value : α) :
    List (Node α n) :=
  [(Side.left, BoundSide.upper, Integral.floor value),
    (Side.right, BoundSide.lower, Integral.ceil value)].map fun (side, bound, rhs) =>
      node.child ⟨side, none⟩ (lp.addBound v bound.relation rhs)

/-- Branches on the variable of the node's level. -/
def branch (s : Search α n) (node : Node α n) (lp : LinearProgram α n) (x : List α)
    (index : Nat) : Verdict α × Option (List (Node α n)) :=
  if node.level < s.nrBinary then
    (.branchedBinary index,
      if h : index < n then some (binaryChildren node lp ⟨index, h⟩) else none)
  else
    match x[index]? with
    | none => (.unreadable, none)
    | some value =>
      (.branchedInteger index value,
        if h : index < n then some (integerChildren node lp ⟨index, h⟩ value) else none)

/-- What becomes of a node whose relaxation has the given solution. -/
def judge (s : Search α n) (node : Node α n) (lp : LinearProgram α n) (solution : Solution α)
    (state : SearchState α) : Verdict α × Option (List (Node α n)) × SearchState α :=
  match solution.state with
  | .unbounded => (.unbounded, some [], { state with unbounded := true })
  | .solved =>
    match state.incumbent.filter fun best => !Solution.improves s.objective solution best with
    | some best => (.dominated solution.objectiveValue best.objectiveValue, some [], state)
    | none =>
      match isIntegralOn? solution.x s.order with
      | none => (.unreadable, none, state)
      | some true =>
        (.accepted solution.objectiveValue, some [], { state with incumbent := some solution })
      | some false =>
        match s.order[node.level]? with
        | none => (.leaf, some [], state)
        | some index =>
          if state.unbounded then (.leaf, some [], state)
          else
            let (verdict, children?) := s.branch node lp solution.x index
            (verdict, children?, state)
  | other => (.unsolved other, some [], state)

/-- Solves the relaxation of a node and decides on its children. -/
def evaluate (s : Search α n) (v : Verbosity) (node : Node α n) (state : SearchState α) :
    Visit α n :=
  let state := { state with iterations := state.iterations + 1 }
  match node.takeProblem with
  | (none, node) => ⟨node, none, .spent, some [], state, []⟩
  | (some lp, node) =>
    let (solution, told) := s.relax lp
    match withFixings? node solution with
    | none => ⟨node, some lp, .unreadable, none, state, told⟩
    | some solution =>
      let (verdict, children?, state) := s.judge node lp solution state
      ⟨node, some lp, verdict, children?, state, told ++ verdict.messages v node⟩

/-! ## Exploration of a tree -/

/-- The visits that were made, in order, and what was left. -/
structure Exploration (φ α : Type) (n : Nat) where
  visits : List (Visit α n)
  state : SearchState α
  pending : φ

/-- Visits pending nodes until there are none, or a relaxation is unbounded; at most `fuel`. -/
def exploreFrom {φ : Type} [Frontier φ (Node α n)] (s : Search α n) (v : Verbosity) :
    Nat → φ → SearchState α → Exploration φ α n
  | 0, pending, state => ⟨[], state, pending⟩
  | fuel + 1, pending, state =>
    if state.unbounded then ⟨[], state, pending⟩
    else
      match Frontier.pop? pending with
      | none => ⟨[], state, pending⟩
      | some (node, pending) =>
        let visit := s.evaluate v node state
        let rest := s.exploreFrom v fuel (Frontier.pushAll pending visit.children) visit.state
        { rest with visits := visit :: rest.visits }

/-- A tree of binary branchings has fewer nodes, as no level comes after the last variable. -/
def nodeBudget (s : Search α n) : Nat := Nat.pow 2 (s.order.length + 1)

/-- Explores the tree of a root. -/
def explore (φ : Type) [Frontier φ (Node α n)] (s : Search α n) (v : Verbosity)
    (root : Node α n) : Exploration φ α n :=
  s.exploreFrom v s.nodeBudget (Frontier.push Frontier.empty root) {}

/-- What is told about an exploration. -/
def Exploration.messages {φ : Type} (v : Verbosity) (e : Exploration φ α n) : List Message :=
  e.visits.flatMap (Visit.report v)

/-- The outcome of a search over a program with so many variables and constraints; bounds that were
added have no dual values. -/
def finish (s : Search α n) (state : SearchState α) (nrVariables nrConstraints : Nat) :
    Solution α :=
  if state.unbounded then .unsolved .unbounded s.objective nrVariables state.iterations
  else
    match state.incumbent with
    | some solution =>
      { solution with
        iterations := state.iterations
        shadowPrice := solution.shadowPrice.take nrConstraints }
    | none => .unsolved .noSolution s.objective nrVariables state.iterations

end Search

end LinProg
