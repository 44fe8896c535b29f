import LinProg.Branching.Search

/-!
# What becomes of a node

`Judged` has a case for each way that an evaluation can go, with all that was tested on the way.
Whatever the relaxation returns, a node has no children or the two of `Branched`, one level further
down.
-/

namespace LinProg

deriving instance DecidableEq for Verdict

namespace Node

variable {α : Type} {n : Nat}

/-! ## Positions -/

def sides (node : Node α n) : List Side := node.path.reverse.map (·.side)

theorem length_sides (node : Node α n) : node.sides.length = node.level := by
  rw [sides, List.length_map, List.length_reverse, level]

theorem sides_child (node : Node α n) (decision : Decision α) (lp : LinearProgram α n) :
    (node.child decision lp).sides = node.sides ++ [decision.side] := by
  rw [sides, child, List.reverse_cons, List.map_append, sides]
  rfl

end Node

namespace Search

variable {α : Type} [Integral α] {n : Nat}

/-! ## Integrality -/

theorem isIntegralOn?_eq_true {x : List α} {order : List Nat} :
    isIntegralOn? x order = some true ↔
      ∀ index ∈ order, ∃ a, x[index]? = some a ∧ Integral.isIntegral a = true := by
  induction order with
  | nil => simp [isIntegralOn?]
  | cons index rest ih =>
    rw [isIntegralOn?, List.forall_mem_cons, ← ih]
    split
    next h => simp [h]
    next a h =>
      split
      next hint => simp [h, hint]
      next hint => simp [h, hint]

theorem isIntegralOn?_ne_none {x : List α} {order : List Nat}
    (h : ∀ index ∈ order, index < x.length) : isIntegralOn? x order ≠ none := by
  induction order with
  | nil => simp [isIntegralOn?]
  | cons index rest ih =>
    rw [List.forall_mem_cons] at h
    rw [isIntegralOn?, List.getElem?_eq_getElem h.1]
    dsimp only
    split
    next => exact ih h.2
    next => simp

/-! ## Judgement -/

def Beats (s : Search α n) (solution : Solution α) (state : SearchState α) : Prop :=
  ∀ best, state.incumbent = some best → solution.improves s.objective best = true

inductive Judged (s : Search α n) (node : Node α n) (lp : LinearProgram α n)
    (solution : Solution α) (state : SearchState α) :
    Verdict α × Option (List (Node α n)) × SearchState α → Prop
  | misplaced (hplaces : ∃ fixing ∈ node.fixings, solution.x.length ≤ fixing.1) :
      Judged s node lp solution state (.unreadable, none, state)
  | unbounded (hstate : solution.state = .unbounded) :
      Judged s node lp solution state (.unbounded, some [], { state with unbounded := true })
  | unsolved (hsolved : solution.state ≠ .solved) (hbounded : solution.state ≠ .unbounded) :
      Judged s node lp solution state (.unsolved solution.state, some [], state)
  | dominated (hsolved : solution.state = .solved) {best : Solution α}
      (hbest : state.incumbent = some best) (hworse : solution.improves s.objective best = false) :
      Judged s node lp solution state
        (.dominated solution.objectiveValue best.objectiveValue, some [], state)
  | unreadable (hsolved : solution.state = .solved) (hbeats : s.Beats solution state)
      (hx : isIntegralOn? solution.x s.order = none) :
      Judged s node lp solution state (.unreadable, none, state)
  | accepted (hsolved : solution.state = .solved) (hbeats : s.Beats solution state)
      (hx : isIntegralOn? solution.x s.order = some true) :
      Judged s node lp solution state
        (.accepted solution.objectiveValue, some [], { state with incumbent := some solution })
  | leaf (hsolved : solution.state = .solved) (hbeats : s.Beats solution state)
      (hx : isIntegralOn? solution.x s.order = some false)
      (hlast : s.order.length ≤ node.level ∨ state.unbounded = true) :
      Judged s node lp solution state (.leaf, some [], state)
  | branched (hsolved : solution.state = .solved) (hbeats : s.Beats solution state)
      (hx : isIntegralOn? solution.x s.order = some false) {index : Nat}
      (hindex : s.order[node.level]? = some index) (hbounded : state.unbounded = false) :
      Judged s node lp solution state
        ((s.branch node lp solution.x index).1, (s.branch node lp solution.x index).2, state)

theorem beats_of_filter {s : Search α n} {solution : Solution α} {state : SearchState α}
    (h : (state.incumbent.filter fun best => !solution.improves s.objective best) = none) :
    s.Beats solution state := by
  intro best hbest
  rw [hbest, Option.filter_eq_none_iff] at h
  simpa using h best rfl

theorem judged_judge (s : Search α n) (node : Node α n) (lp : LinearProgram α n)
    (solution : Solution α) (state : SearchState α) :
    Judged s node lp solution state (s.judge node lp solution state) := by
  unfold judge
  split
  next hstate => exact .unbounded hstate
  next hsolved =>
    split
    next best hbest =>
      rw [Option.filter_eq_some_iff] at hbest
      exact .dominated hsolved hbest.1 (by simpa using hbest.2)
    next hfilter =>
      have hbeats := beats_of_filter hfilter
      split
      next hx => exact .unreadable hsolved hbeats hx
      next hx => exact .accepted hsolved hbeats hx
      next hx =>
        split
        next hindex => exact .leaf hsolved hbeats hx (.inl (List.getElem?_eq_none_iff.1 hindex))
        next index hindex =>
          split
          next hunbounded => exact .leaf hsolved hbeats hx (.inr hunbounded)
          next hbounded =>
            exact .branched hsolved hbeats hx hindex (by simpa using hbounded)
  next hunbounded hsolved => exact .unsolved hsolved hunbounded

/-! ## Evaluation -/

omit [Integral α] in
theorem length_withFixings (node : Node α n) (solution : Solution α) :
    (withFixings node solution).x.length = solution.x.length := by
  unfold withFixings
  generalize solution.x = x
  induction node.fixings generalizing x with
  | nil => rfl
  | cons fixing rest ih => rw [List.foldl_cons, ih, List.length_set]

omit [Integral α] in
theorem withFixings?_eq_none {node : Node α n} {solution : Solution α} :
    withFixings? node solution = none ↔
      ∃ fixing ∈ node.fixings, solution.x.length ≤ fixing.1 := by
  simp [withFixings?]

omit [Integral α] in
theorem withFixings?_eq_some {node : Node α n} {solution fixed : Solution α}
    (h : withFixings? node solution = some fixed) : fixed = withFixings node solution := by
  unfold withFixings? at h
  split at h
  · exact (Option.some.inj h).symm
  · cases h

/-- A node that still has its problem is judged by the solution of its relaxation. -/
theorem judged_evaluate (s : Search α n) (v : Verbosity) {node : Node α n}
    {lp : LinearProgram α n} (hlp : node.problem = some lp) (state : SearchState α) :
    Judged s node.takeProblem.2 lp (withFixings node.takeProblem.2 (s.relax lp).1)
      { state with iterations := state.iterations + 1 }
      ((s.evaluate v node state).verdict, (s.evaluate v node state).children?,
        (s.evaluate v node state).state) := by
  obtain ⟨_, path⟩ := node
  cases hlp
  unfold evaluate
  dsimp only [Node.takeProblem]
  split
  next hnone =>
    rw [withFixings?_eq_none] at hnone
    exact .misplaced (by rwa [length_withFixings])
  next solution hsome =>
    obtain rfl := withFixings?_eq_some hsome
    exact judged_judge ..

theorem evaluate_of_misplaced (s : Search α n) (v : Verbosity) {node : Node α n}
    {lp : LinearProgram α n} (hlp : node.problem = some lp)
    (hplaces : withFixings? node (s.relax lp).1 = none) (state : SearchState α) :
    (s.evaluate v node state).children? = none ∧
      (s.evaluate v node state).state = { state with iterations := state.iterations + 1 } := by
  obtain ⟨_, path⟩ := node
  cases hlp
  change withFixings? (⟨none, path⟩ : Node α n) (s.relax lp).1 = none at hplaces
  unfold evaluate
  dsimp only [Node.takeProblem]
  rw [hplaces]
  exact ⟨rfl, rfl⟩

theorem node_evaluate (s : Search α n) (v : Verbosity) (node : Node α n) (state : SearchState α) :
    (s.evaluate v node state).node = node.takeProblem.2 := by
  obtain ⟨_ | lp, path⟩ := node
  · rfl
  · unfold evaluate
    dsimp only [Node.takeProblem]
    split <;> rfl

theorem path_evaluate (s : Search α n) (v : Verbosity) (node : Node α n) (state : SearchState α) :
    (s.evaluate v node state).node.path = node.path := by
  rw [node_evaluate]
  rfl

theorem level_evaluate (s : Search α n) (v : Verbosity) (node : Node α n) (state : SearchState α) :
    (s.evaluate v node state).node.level = node.level :=
  congrArg List.length (path_evaluate s v node state)

theorem fixings_evaluate (s : Search α n) (v : Verbosity) (node : Node α n)
    (state : SearchState α) : (s.evaluate v node state).node.fixings = node.fixings := by
  rw [node_evaluate]
  rfl

theorem problem_evaluate (s : Search α n) (v : Verbosity) (node : Node α n)
    (state : SearchState α) : (s.evaluate v node state).problem = node.problem := by
  obtain ⟨_ | lp, path⟩ := node
  · rfl
  · unfold evaluate
    dsimp only [Node.takeProblem]
    split <;> rfl

/-- The visit made this solution the incumbent: the answer to its relaxation, with the eliminated
variables at their values. -/
structure Accepts (s : Search α n) (visit : Visit α n) (best : Solution α) : Prop where
  verdict : visit.verdict = .accepted best.objectiveValue
  solved : best.state = .solved
  integral : isIntegralOn? best.x s.order = some true
  answer : ∃ lp, visit.problem = some lp ∧ best = withFixings visit.node (s.relax lp).1

theorem incumbent_evaluate {s : Search α n} {v : Verbosity} {node : Node α n}
    {state : SearchState α} {best : Solution α}
    (hbest : (s.evaluate v node state).state.incumbent = some best) :
    state.incumbent = some best ∨ s.Accepts (s.evaluate v node state) best := by
  cases hlp : node.problem with
  | none =>
    obtain ⟨_, path⟩ := node
    cases hlp
    exact .inl hbest
  | some lp =>
    have h := judged_evaluate s v hlp state
    have hproblem := (problem_evaluate s v node state).trans hlp
    rw [← node_evaluate s v node state] at h
    generalize s.evaluate v node state = visit at h hproblem hbest ⊢
    obtain ⟨taken, _, verdict, children?, after, _⟩ := visit
    dsimp only at h
    cases h with
    | misplaced | unbounded | unsolved | dominated | unreadable | leaf | branched =>
      exact .inl hbest
    | accepted hsolved _ hx =>
      cases hbest
      exact .inr ⟨rfl, hsolved, hx, lp, hproblem, rfl⟩

theorem iterations_evaluate (s : Search α n) (v : Verbosity) (node : Node α n)
    (state : SearchState α) :
    (s.evaluate v node state).state.iterations = state.iterations + 1 := by
  cases hlp : node.problem with
  | none =>
    obtain ⟨_, path⟩ := node
    cases hlp
    rfl
  | some lp =>
    have h := judged_evaluate s v hlp state
    generalize s.evaluate v node state = visit at h ⊢
    obtain ⟨_, _, verdict, children?, after, _⟩ := visit
    cases h <;> rfl

/-! ## Children -/

end Search

namespace Side

/-- The value at which the child of a binary level fixes its variable. -/
def fixed {α : Type} [Scalar α] : Side → α
  | left => 0
  | right => 1

/-- The bound that the child of an integer level adds for its variable. -/
def bound : Side → BoundSide
  | left => .upper
  | right => .lower

/-- Where this bound is if the variable has some value. -/
def rounded {α : Type} [Integral α] : Side → α → α
  | left => Integral.floor
  | right => Integral.ceil

end Side

namespace Search

variable {α : Type} [Integral α] {n : Nat}

theorem mem_binaryChildren {node child : Node α n} {lp : LinearProgram α n} {w : Fin n} :
    child ∈ binaryChildren node lp w ↔
      ∃ side : Side, child = node.child ⟨side, some (w.val, side.fixed)⟩ (lp.fix w side.fixed) := by
  simp only [binaryChildren, List.map_cons, List.map_nil, List.mem_cons, List.not_mem_nil,
    or_false]
  constructor
  · rintro (rfl | rfl)
    · exact ⟨.left, rfl⟩
    · exact ⟨.right, rfl⟩
  · rintro ⟨_ | _, rfl⟩
    · exact .inl rfl
    · exact .inr rfl

theorem mem_integerChildren {node child : Node α n} {lp : LinearProgram α n} {w : Fin n}
    {value : α} :
    child ∈ integerChildren node lp w value ↔
      ∃ side : Side, child =
        node.child ⟨side, none⟩ (lp.addBound w side.bound.relation (side.rounded value)) := by
  simp only [integerChildren, List.map_cons, List.map_nil, List.mem_cons, List.not_mem_nil,
    or_false]
  constructor
  · rintro (rfl | rfl)
    · exact ⟨.left, rfl⟩
    · exact ⟨.right, rfl⟩
  · rintro ⟨_ | _, rfl⟩
    · exact .inl rfl
    · exact .inr rfl

theorem verdict_branch_ne_leaf (s : Search α n) (node : Node α n) (lp : LinearProgram α n)
    (x : List α) (index : Nat) : (s.branch node lp x index).1 ≠ .leaf := by
  unfold branch
  split
  · nofun
  · split <;> nofun

theorem verdict_branch_ne_unbounded (s : Search α n) (node : Node α n) (lp : LinearProgram α n)
    (x : List α) (index : Nat) : (s.branch node lp x index).1 ≠ .unbounded := by
  unfold branch
  split
  · nofun
  · split <;> nofun

/-- A search is unbounded once a node is, and stays so. -/
theorem unbounded_evaluate (s : Search α n) (v : Verbosity) (node : Node α n)
    (state : SearchState α) :
    (s.evaluate v node state).state.unbounded = true ↔
      state.unbounded = true ∨ (s.evaluate v node state).verdict = .unbounded := by
  cases hlp : node.problem with
  | none =>
    obtain ⟨_, path⟩ := node
    cases hlp
    exact (or_iff_left nofun).symm
  | some lp =>
    have h := judged_evaluate s v hlp state
    generalize s.evaluate v node state = visit at h ⊢
    obtain ⟨_, _, verdict, children?, after, _⟩ := visit
    cases h with
    | unbounded => exact (iff_true_right (.inr rfl)).2 rfl
    | misplaced | unsolved | dominated | unreadable | accepted | leaf =>
      exact (or_iff_left nofun).symm
    | branched => exact (or_iff_left (verdict_branch_ne_unbounded s _ lp _ _)).symm

/-- The visit branched on the variable of its level, which makes its children. -/
inductive Branched (s : Search α n) (visit : Visit α n) : Prop
  | binary {lp : LinearProgram α n} {w : Fin n} (hproblem : visit.problem = some lp)
      (hindex : s.order[visit.node.level]? = some w.val) (hlevel : visit.node.level < s.nrBinary)
      (hverdict : visit.verdict = .branchedBinary w.val)
      (hchildren : visit.children = binaryChildren visit.node lp w)
  /-- The variable has this value at the relaxation of the node. -/
  | integer {lp : LinearProgram α n} {w : Fin n} {value : α} (hproblem : visit.problem = some lp)
      (hindex : s.order[visit.node.level]? = some w.val) (hlevel : s.nrBinary ≤ visit.node.level)
      (hvalue : (withFixings visit.node (s.relax lp).1).x[w.val]? = some value)
      (hverdict : visit.verdict = .branchedInteger w.val value)
      (hchildren : visit.children = integerChildren visit.node lp w value)

/-- A variable that exists gets two children, unless it is to be bounded and has no value. -/
theorem branch_cases (s : Search α n) (node : Node α n) (lp : LinearProgram α n) (x : List α)
    (index : Nat) :
    (s.branch node lp x index).2.getD [] = [] ∨
      ∃ w : Fin n, w.val = index ∧
        (node.level < s.nrBinary ∧
            s.branch node lp x index = (.branchedBinary w.val, some (binaryChildren node lp w)) ∨
          s.nrBinary ≤ node.level ∧ ∃ value, x[w.val]? = some value ∧
            s.branch node lp x index =
              (.branchedInteger w.val value, some (integerChildren node lp w value))) := by
  unfold branch
  by_cases hindex : index < n
  · simp only [dif_pos hindex]
    by_cases hlevel : node.level < s.nrBinary
    · rw [if_pos hlevel]
      exact .inr ⟨⟨index, hindex⟩, rfl, .inl ⟨hlevel, rfl⟩⟩
    · rw [if_neg hlevel]
      cases hx : x[index]? with
      | none => exact .inl rfl
      | some value =>
        exact .inr ⟨⟨index, hindex⟩, rfl, .inr ⟨Nat.le_of_not_lt hlevel, value, hx, rfl⟩⟩
  · left
    simp only [dif_neg hindex]
    split
    · rfl
    · split <;> rfl

/-- There are children only where a variable was branched on. -/
theorem branched_evaluate (s : Search α n) (v : Verbosity) (node : Node α n)
    (state : SearchState α) :
    (s.evaluate v node state).children = [] ∨ s.Branched (s.evaluate v node state) := by
  cases hlp : node.problem with
  | none =>
    obtain ⟨_, path⟩ := node
    cases hlp
    exact .inl rfl
  | some lp =>
    have h := judged_evaluate s v hlp state
    have hproblem := (problem_evaluate s v node state).trans hlp
    rw [← node_evaluate s v node state] at h
    generalize s.evaluate v node state = visit at h hproblem ⊢
    obtain ⟨taken, _, verdict, children?, after, _⟩ := visit
    dsimp only at h
    cases h with
    | misplaced | unbounded | unsolved | dominated | unreadable | accepted | leaf => exact .inl rfl
    | @branched _ _ _ index hindex _ =>
      rcases branch_cases s taken lp (withFixings taken (s.relax lp).1).x index with
        hnone | ⟨w, rfl, ⟨hbinary, hbranch⟩ | ⟨hinteger, value, hvalue, hbranch⟩⟩
      · exact .inl hnone
      · rw [hbranch]
        exact .inr (.binary hproblem hindex hbinary rfl rfl)
      · rw [hbranch]
        exact .inr (.integer hproblem hindex hinteger hvalue rfl rfl)

theorem branched_of_child {s : Search α n} {v : Verbosity} {node child : Node α n}
    {state : SearchState α} (h : child ∈ (s.evaluate v node state).children) :
    s.Branched (s.evaluate v node state) := by
  rcases branched_evaluate s v node state with hnone | hbranched
  · rw [hnone] at h
    cases h
  · exact hbranched

theorem sides_children (s : Search α n) (v : Verbosity) (node : Node α n)
    (state : SearchState α) :
    (s.evaluate v node state).children = [] ∨
      (s.evaluate v node state).children.map Node.sides =
        [node.sides ++ [.left], node.sides ++ [.right]] := by
  have hsides : (s.evaluate v node state).node.sides = node.sides :=
    congrArg (fun path => (path.reverse.map (·.side) : List Side)) (path_evaluate s v node state)
  rcases branched_evaluate s v node state with hnone | hbranched
  · exact .inl hnone
  · right
    cases hbranched with
    | binary _ _ _ _ hchildren | integer _ _ _ _ _ hchildren =>
      rw [hchildren, ← hsides]
      simp only [binaryChildren, integerChildren, List.map_cons, List.map_nil, Node.sides_child]

theorem sides_of_child {s : Search α n} {v : Verbosity} {node child : Node α n}
    {state : SearchState α} (h : child ∈ (s.evaluate v node state).children) :
    ∃ side, child.sides = node.sides ++ [side] := by
  have hmem := List.mem_map_of_mem (f := Node.sides) h
  rcases sides_children s v node state with hnone | hsides
  · rw [hnone] at h
    cases h
  · simp only [hsides, List.mem_cons, List.not_mem_nil, or_false] at hmem
    rcases hmem with hleft | hright
    · exact ⟨.left, hleft⟩
    · exact ⟨.right, hright⟩

def Splits (level : Nat) (children : List (Node α n)) : Prop :=
  children = [] ∨ ∃ a b, children = [a, b] ∧ a.level = level + 1 ∧ b.level = level + 1

theorem splits_evaluate (s : Search α n) (v : Verbosity) (node : Node α n)
    (state : SearchState α) :
    (s.evaluate v node state).children = [] ∨
      node.level < s.order.length ∧ Splits node.level (s.evaluate v node state).children := by
  rw [← level_evaluate s v node state]
  rcases branched_evaluate s v node state with hnone | hbranched
  · exact .inl hnone
  · right
    cases hbranched with
    | binary _ hindex _ _ hchildren | integer _ hindex _ _ _ hchildren =>
      exact ⟨(List.getElem?_eq_some_iff.1 hindex).1, .inr ⟨_, _, hchildren, rfl, rfl⟩⟩

theorem level_of_child {s : Search α n} {v : Verbosity} {node child : Node α n}
    {state : SearchState α} (h : child ∈ (s.evaluate v node state).children) :
    node.level < s.order.length ∧ child.level = node.level + 1 := by
  rcases splits_evaluate s v node state with hnone | ⟨hlevel, hnone | ⟨a, b, hab, ha, hb⟩⟩
  · rw [hnone] at h
    cases h
  · rw [hnone] at h
    cases h
  · simp only [hab, List.mem_cons, List.not_mem_nil, or_false] at h
    rcases h with rfl | rfl
    · exact ⟨hlevel, ha⟩
    · exact ⟨hlevel, hb⟩

end Search

end LinProg
