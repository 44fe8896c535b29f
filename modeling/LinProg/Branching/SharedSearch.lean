import LinProg.Branching.Search
import LinProg.Branching.Workers

/-!
# Several workers on one search

A pool of workers together with what they share of a search.  To evaluate a node is one action: its
relaxation depends on the node alone, and the incumbent is compared and replaced under one lock.
All other actions are those of `Workers` and leave the search alone.
-/

namespace LinProg

/-- The workers of a search, and what they found out so far. -/
structure SharedSearch (α : Type) (n : Nat) where
  pool : Workers.Pool (Node α n)
  state : SearchState α
  /-- The evaluations that were made, the latest first. -/
  visits : List (Visit α n)

namespace SharedSearch

variable {α : Type} {n : Nat}

/-- A search whose root is still to be submitted. -/
def init (root : Node α n) : SharedSearch α n := ⟨.init root, {}, []⟩

/-- The count is back at zero after the root was submitted, which is what the search waits for. -/
def Ended (x : SharedSearch α n) : Prop :=
  x.pool.outstanding = 0 ∧ ∀ submission, .start submission ∉ x.pool.tasks

variable [Integral α]

/-- The task between `before` and `after` evaluates its node and goes on with the children. -/
def evaluate (x : SharedSearch α n) (s : Search α n) (v : Verbosity)
    (before after : List (Workers.Task (Node α n))) (node : Node α n) : SharedSearch α n :=
  let visit := s.evaluate v node x.state
  { pool := { x.pool with
      unbounded := visit.state.unbounded
      evaluated := node :: x.pool.evaluated
      tasks := before ++ .submitAll visit.children :: after }
    state := visit.state
    visits := visit :: x.visits }

/-- One atomic action of some task. -/
inductive Step (s : Search α n) (v : Verbosity) : SharedSearch α n → SharedSearch α n → Prop
  | evaluate (x : SharedSearch α n) (before after : List (Workers.Task (Node α n)))
      (node : Node α n) (here : x.pool.tasks = before ++ .evaluate node :: after) :
      Step s v x (x.evaluate s v before after node)
  | act (x : SharedSearch α n) (before after : List (Workers.Task (Node α n)))
      (task : Workers.Task (Node α n)) (q : Workers.Pool (Node α n))
      (here : x.pool.tasks = before ++ task :: after)
      (acts : Workers.Act before after task x.pool q) (other : ∀ node, task ≠ .evaluate node) :
      Step s v x { x with pool := q }

/-- What any number of actions lead to from the root, however the tasks interleave. -/
inductive Reaches (s : Search α n) (v : Verbosity) (root : Node α n) : SharedSearch α n → Prop
  | init : Reaches s v root (.init root)
  | tail {x y : SharedSearch α n} (first : Reaches s v root x) (next : Step s v x y) :
      Reaches s v root y

end SharedSearch

end LinProg
