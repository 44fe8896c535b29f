/-!
# Several workers on one frontier

How workers share the exploration of a tree.  Nodes wait in a common frontier.  To submit a node is
to push it, to raise the count of outstanding nodes, and to spawn a task, in this order.  A task
pops some node, evaluates it unless the search is unbounded by then, submits the children one by one
and lowers the count at last; a node whose evaluation fails has no children.  The exploration is
over once the count is back at zero.

`Step` is one atomic action of one worker and `Reaches` any interleaving of them.  The frontier is a
list, but a pop may take any of its members, so every order of exploration is covered.
-/

namespace LinProg.Workers

/-- What is next in the submission of a node. -/
inductive Submission (ν : Type) where
  | push (node : ν)
  | count
  | spawn

/-- What a task is about to do. -/
inductive Task (ν : Type) where
  /-- To submit the root; nothing is left to do afterwards. -/
  | start (submission : Submission ν)
  /-- To pop a node. -/
  | pop
  /-- To look whether the node it popped still matters. -/
  | check (node : ν)
  /-- To evaluate its node. -/
  | evaluate (node : ν)
  /-- To go on submitting a child, the later ones following. -/
  | submit (submission : Submission ν) (later : List ν)
  /-- To lower the count. -/
  | finish

/-- A task that evaluated its node submits the children. -/
def Task.submitAll {ν : Type} : List ν → Task ν
  | [] => .finish
  | child :: later => .submit (.push child) later

/-- What the workers share, and the tasks that are pending or running. -/
structure Pool (ν : Type) where
  frontier : List ν
  outstanding : Int
  unbounded : Bool
  tasks : List (Task ν)
  /-- All nodes that were ever pushed, the latest first. -/
  pushed : List ν
  /-- All nodes that were ever popped, the latest first. -/
  popped : List ν
  /-- Those of them that were evaluated. -/
  evaluated : List ν
  /-- Those that were dropped because the search was unbounded. -/
  dropped : List ν

variable {ν : Type}

/-- A pool whose only task is to submit the root. -/
def Pool.init (root : ν) : Pool ν := ⟨[], 0, false, [.start (.push root)], [], [], [], []⟩

/-- A push onto the frontier. -/
def Pool.push (p : Pool ν) (node : ν) : Pool ν :=
  { p with frontier := node :: p.frontier, pushed := node :: p.pushed }

/-- One atomic action of the task between `before` and `after`. -/
inductive Act (before after : List (Task ν)) : Task ν → Pool ν → Pool ν → Prop
  | startPush (p : Pool ν) (node : ν) :
      Act before after (.start (.push node)) p
        { p.push node with tasks := before ++ .start .count :: after }
  | startCount (p : Pool ν) :
      Act before after (.start .count) p
        { p with outstanding := p.outstanding + 1, tasks := before ++ .start .spawn :: after }
  | startSpawn (p : Pool ν) :
      Act before after (.start .spawn) p { p with tasks := .pop :: before ++ after }
  | pop (p : Pool ν) (left right : List ν) (node : ν) (h : p.frontier = left ++ node :: right) :
      Act before after .pop p
        { p with
          frontier := left ++ right
          popped := node :: p.popped
          tasks := before ++ .check node :: after }
  | popNothing (p : Pool ν) (h : p.frontier = []) :
      Act before after .pop p { p with tasks := before ++ .finish :: after }
  | drop (p : Pool ν) (node : ν) (h : p.unbounded = true) :
      Act before after (.check node) p
        { p with dropped := node :: p.dropped, tasks := before ++ .finish :: after }
  | keep (p : Pool ν) (node : ν) (h : p.unbounded = false) :
      Act before after (.check node) p { p with tasks := before ++ .evaluate node :: after }
  | evaluate (p : Pool ν) (node : ν) (children : List ν) :
      Act before after (.evaluate node) p
        { p with
          evaluated := node :: p.evaluated
          tasks := before ++ .submitAll children :: after }
  | fail (p : Pool ν) (node : ν) :
      Act before after (.evaluate node) p
        { p with evaluated := node :: p.evaluated, tasks := before ++ .finish :: after }
  | detectUnbounded (p : Pool ν) (node : ν) :
      Act before after (.evaluate node) p
        { p with
          unbounded := true
          evaluated := node :: p.evaluated
          tasks := before ++ .finish :: after }
  | push (p : Pool ν) (child : ν) (later : List ν) :
      Act before after (.submit (.push child) later) p
        { p.push child with tasks := before ++ .submit .count later :: after }
  | count (p : Pool ν) (later : List ν) :
      Act before after (.submit .count later) p
        { p with
          outstanding := p.outstanding + 1
          tasks := before ++ .submit .spawn later :: after }
  | spawn (p : Pool ν) (later : List ν) :
      Act before after (.submit .spawn later) p
        { p with tasks := .pop :: before ++ .submitAll later :: after }
  | finish (p : Pool ν) :
      Act before after .finish p
        { p with outstanding := p.outstanding - 1, tasks := before ++ after }

/-- One atomic action of some task. -/
inductive Step : Pool ν → Pool ν → Prop
  | act {p q : Pool ν} (before after : List (Task ν)) (task : Task ν)
      (here : p.tasks = before ++ task :: after) (acts : Act before after task p q) : Step p q

/-- Any number of actions, however the tasks interleave. -/
inductive Reaches : Pool ν → Pool ν → Prop
  | refl (p : Pool ν) : Reaches p p
  | tail {p q r : Pool ν} (first : Reaches p q) (next : Step q r) : Reaches p r

end LinProg.Workers
