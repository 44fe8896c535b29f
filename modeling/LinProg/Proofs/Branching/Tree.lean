import LinProg.Proofs.Branching.AnyOrder
import LinProg.Proofs.Branching.Genuine
import LinProg.Proofs.Number.Ranked

/-!
# The full tree of a search

Which nodes a search visits depends on the incumbents it had on the way, so different orders visit
different nodes.  All of them belong to the tree that grows when there never is an incumbent
(`Below`).  If no relaxation improves on the one above it, an incumbent that a node doesn't improve
on covers all that is below the node, so every complete search ends with the best integral
solution of the full tree (`isBest_finish`).
-/

namespace LinProg.Search

open Ranked

variable {α : Type} {n : Nat}

/-! ## The tree -/

/-- What is found at a node: the answer to its relaxation, with the eliminated variables at their
values. -/
def relaxed? (s : Search α n) (node : Node α n) : Option (Solution α) :=
  node.problem.bind fun lp => withFixings? node (s.relax lp).1

/-- The solution to the relaxation of a node is read, or the visit of the node fails. -/
theorem relaxed?_cases (s : Search α n) {node : Node α n} {lp : LinearProgram α n}
    (hlp : node.problem = some lp) :
    (s.relaxed? node = none ∧ withFixings? node (s.relax lp).1 = none) ∨
      (s.relaxed? node = some (withFixings node (s.relax lp).1) ∧
        ¬∃ fixing ∈ node.fixings, (withFixings node (s.relax lp).1).x.length ≤ fixing.1) := by
  rw [relaxed?, hlp, Option.bind_some, length_withFixings, ← withFixings?_eq_none]
  cases h : withFixings? node (s.relax lp).1 with
  | none => exact .inl ⟨rfl, rfl⟩
  | some solution =>
    rw [withFixings?_eq_some h]
    exact .inr ⟨rfl, nofun⟩

variable [Integral α]

/-- The nodes to visit in place of a node when there is no incumbent. -/
def children (s : Search α n) (node : Node α n) : List (Node α n) :=
  (s.evaluate none node {}).children

/-- A node is in the full tree below another one. -/
abbrev Below (s : Search α n) : Node α n → Node α n → Prop :=
  Relation.ReflTransGen fun node child => child ∈ s.children node

def tree (s : Search α n) : Nat → Node α n → List (Node α n)
  | 0, node => [node]
  | levels + 1, node => node :: (s.children node).flatMap (s.tree levels)

theorem mem_tree_self (s : Search α n) (levels : Nat) (node : Node α n) :
    node ∈ s.tree levels node := by
  cases levels <;> exact List.mem_cons_self

/-- The full tree has no more levels than there are variables to branch on. -/
theorem Below.mem_tree {s : Search α n} {root node : Node α n} (h : s.Below root node) :
    node ∈ s.tree (s.order.length - root.level) root := by
  induction h using Relation.ReflTransGen.head_induction_on with
  | refl => exact mem_tree_self s _ _
  | @head parent child hchild _ ih =>
    have hlevel : parent.level < s.order.length ∧ child.level = parent.level + 1 :=
      level_of_child hchild
    have hlevels : s.order.length - parent.level = (s.order.length - child.level) + 1 := by omega
    rw [hlevels]
    exact List.mem_cons_of_mem _ (List.mem_flatMap.2 ⟨child, hchild, ih⟩)

/-! ## Evaluation without pruning -/

/-- The judgement of a node that is not pruned by an incumbent depends on the node alone. -/
theorem judge_of_beats (s : Search α n) (node : Node α n) (lp : LinearProgram α n)
    {solution : Solution α} {state : SearchState α} (hbounded : state.unbounded = false)
    (hbeats : solution.state = .solved → s.Beats solution state) :
    (s.judge node lp solution state).2.1 = (s.judge node lp solution {}).2.1 := by
  unfold judge
  split
  next => rfl
  next hsolved =>
    have hfilter : (state.incumbent.filter fun best => !solution.improves s.objective best) =
        none := by
      rw [Option.filter_eq_none_iff]
      intro best hbest
      simp [hbeats hsolved best hbest]
    rw [hfilter, hbounded]
    dsimp only [Option.filter_none]
    split <;> try rfl
    split <;> rfl
  next => rfl

theorem children_evaluate {s : Search α n} (v : Verbosity) {node : Node α n}
    {state : SearchState α} (hbounded : state.unbounded = false)
    (hbeats : ∀ solution, s.relaxed? node = some solution → solution.state = .solved →
      s.Beats solution state) :
    (s.evaluate v node state).children = s.children node := by
  obtain ⟨_ | lp, path⟩ := node
  · rfl
  · unfold children evaluate
    dsimp only [Node.takeProblem]
    cases hplaced : withFixings? (⟨none, path⟩ : Node α n) (s.relax lp).1 with
    | none => rfl
    | some solution =>
      -- both evaluations count the node before they judge it
      have hcounted : ({ state with iterations := state.iterations + 1 }).unbounded = false :=
        hbounded
      have hfirst (_ : solution.state = .solved) : s.Beats solution { iterations := 1 } := nofun
      have hjudge := judge_of_beats s (⟨none, path⟩ : Node α n) lp hcounted
        (hbeats solution hplaced)
      have hjudge' := judge_of_beats s (⟨none, path⟩ : Node α n) lp rfl hfirst
      exact congrArg (·.getD []) (hjudge.trans hjudge'.symm)

/-- What an evaluation makes of a node that is tame, when no relaxation was unbounded. -/
inductive Treated (s : Search α n) (node : Node α n) (state : SearchState α)
    (visit : Visit α n) : Prop
  | dominated {solution best : Solution α} (hsolution : s.relaxed? node = some solution)
      (hsolved : solution.state = .solved) (hbest : state.incumbent = some best)
      (hworse : solution.improves s.objective best = false)
      (hstate : visit.state.incumbent = state.incumbent) (hchildren : visit.children = []) :
      Treated s node state visit
  | accepted {solution : Solution α} (hsolution : s.relaxed? node = some solution)
      (hsolved : solution.state = .solved) (hx : isIntegralOn? solution.x s.order = some true)
      (hbeats : s.Beats solution state) (hstate : visit.state.incumbent = some solution)
      (hchildren : visit.children = []) :
      Treated s node state visit
  /-- The node itself is no candidate for the answer. -/
  | passed (hsolution : ∀ solution, s.relaxed? node = some solution → solution.state = .solved →
        isIntegralOn? solution.x s.order ≠ some true)
      (hstate : visit.state.incumbent = state.incumbent)
      (hchildren : visit.children = s.children node) :
      Treated s node state visit

/-- An evaluation of a node whose relaxation is bounded. -/
theorem treated_evaluate {s : Search α n} (v : Verbosity) {node : Node α n}
    {state : SearchState α} (hbounded : state.unbounded = false)
    (hnode : ∀ solution, s.relaxed? node = some solution → solution.state ≠ .unbounded) :
    (s.evaluate v node state).state.unbounded = false ∧
      s.Treated node state (s.evaluate v node state) := by
  have hchildren : (∀ solution, s.relaxed? node = some solution → solution.state = .solved →
      s.Beats solution state) → (s.evaluate v node state).children = s.children node :=
    children_evaluate v hbounded
  cases hlp : node.problem with
  | none =>
    obtain ⟨_, path⟩ := node
    cases hlp
    exact ⟨hbounded, .passed nofun rfl rfl⟩
  | some lp =>
    obtain ⟨hnone, hfails⟩ | ⟨hsolution, hplaced⟩ := s.relaxed?_cases hlp
    · obtain ⟨-, hstate⟩ := evaluate_of_misplaced s v hlp hfails state
      have hunread {P : Solution α → Prop} (solution : Solution α)
          (h : s.relaxed? node = some solution) : P solution := nomatch hnone.symm.trans h
      rw [hstate]
      exact ⟨hbounded, .passed hunread (by rw [hstate]) (hchildren hunread)⟩
    have hunique {P : Solution α → Prop} (h : P (withFixings node (s.relax lp).1)) :
        ∀ solution, s.relaxed? node = some solution → P solution := by
      rintro solution hsome
      rw [hsolution] at hsome
      cases hsome
      exact h
    have hjudged := judged_evaluate s v hlp state
    change Judged s _ lp (withFixings node (s.relax lp).1) _ _ at hjudged
    generalize s.evaluate v node state = visit at hchildren hjudged ⊢
    obtain ⟨_, _, verdict, children?, after, _⟩ := visit
    dsimp only at hjudged
    cases hjudged with
    | misplaced hplaces => exact absurd hplaces hplaced
    | unbounded hstate => exact absurd hstate (hnode _ hsolution)
    | unsolved hsolved _ =>
      refine ⟨hbounded, .passed (hunique fun h => absurd h hsolved) rfl (hchildren ?_)⟩
      exact hunique fun h => absurd h hsolved
    | dominated hsolved hbest hworse =>
      exact ⟨hbounded, .dominated hsolution hsolved hbest hworse rfl rfl⟩
    | unreadable hsolved hbeats hx =>
      refine ⟨hbounded, .passed (hunique fun _ => ?_) rfl (hchildren (hunique fun _ => hbeats))⟩
      rw [hx]
      nofun
    | accepted hsolved hbeats hx => exact ⟨hbounded, .accepted hsolution hsolved hx hbeats rfl rfl⟩
    | leaf hsolved hbeats hx | branched hsolved hbeats hx =>
      refine ⟨hbounded, .passed (hunique fun _ => ?_) rfl (hchildren (hunique fun _ => hbeats))⟩
      rw [hx]
      nofun

/-! ## What the search relies on -/

variable [Ranked α]

/-- The relaxation of a node is bounded, has a value if it was solved, and no child improves on
it. -/
structure TameAt (s : Search α n) (node : Node α n) : Prop where
  bounded : ∀ solution, s.relaxed? node = some solution → solution.state ≠ .unbounded
  hasValue : ∀ solution, s.relaxed? node = some solution → solution.state = .solved →
    solution.HasValue
  children : ∀ solution, s.relaxed? node = some solution → ∀ child ∈ s.children node,
    ∀ below, s.relaxed? child = some below → below.state = .solved →
      below.improves s.objective solution = false

def Tame (s : Search α n) (root : Node α n) : Prop := ∀ node, s.Below root node → s.TameAt node

instance [DecidablePred (IsValue : α → Prop)] (solution : Solution α) :
    Decidable solution.HasValue :=
  inferInstanceAs (Decidable (∃ a, solution.objectiveValue = some a ∧ IsValue a))

instance [DecidablePred (IsValue : α → Prop)] (s : Search α n) (node : Node α n) :
    Decidable (s.TameAt node) :=
  decidable_of_iff
    ((∀ solution, s.relaxed? node = some solution → solution.state ≠ .unbounded) ∧
      (∀ solution, s.relaxed? node = some solution → solution.state = .solved →
        solution.HasValue) ∧
      ∀ solution, s.relaxed? node = some solution → ∀ child ∈ s.children node,
        ∀ below, s.relaxed? child = some below → below.state = .solved →
          below.improves s.objective solution = false)
    ⟨fun h => ⟨h.1, h.2.1, h.2.2⟩, fun h => ⟨h.bounded, h.hasValue, h.children⟩⟩

theorem tame_of_tree {s : Search α n} {root : Node α n}
    (h : ∀ node ∈ s.tree (s.order.length - root.level) root, s.TameAt node) : s.Tame root :=
  fun node hnode => h node hnode.mem_tree

/-! ## Along a path -/

omit [Ranked α] in
theorem solved_of_child {s : Search α n} {node child : Node α n} (h : child ∈ s.children node) :
    ∃ solution, s.relaxed? node = some solution ∧ solution.state = .solved := by
  cases hlp : node.problem with
  | none =>
    obtain ⟨_, path⟩ := node
    cases hlp
    cases h
  | some lp =>
    have hmem : child ∈ (s.evaluate none node {}).children := h
    obtain ⟨-, hfails⟩ | ⟨hsolution, hplaced⟩ := s.relaxed?_cases hlp
    · rw [Visit.children, (evaluate_of_misplaced s none hlp hfails {}).1] at hmem
      cases hmem
    have hjudged := judged_evaluate s none hlp {}
    change Judged s _ lp (withFixings node (s.relax lp).1) _ _ at hjudged
    generalize s.evaluate none node {} = visit at hjudged hmem
    obtain ⟨_, _, verdict, children?, after, _⟩ := visit
    dsimp only at hjudged
    cases hjudged with
    | misplaced hplaces => exact absurd hplaces hplaced
    | unbounded | unsolved | dominated | unreadable | accepted | leaf => cases hmem
    | branched hsolved => exact ⟨_, hsolution, hsolved⟩

/-- Nothing below a node improves on it. -/
theorem Tame.not_improves {s : Search α n} {root node other : Node α n}
    {solution below : Solution α} (htame : s.Tame root) (hnode : s.Below root node)
    (hother : s.Below node other)
    (hsolution : s.relaxed? node = some solution) (hsolved : solution.state = .solved)
    (hbelow : s.relaxed? other = some below) (hbelowSolved : below.state = .solved) :
    below.improves s.objective solution = false := by
  induction hother using Relation.ReflTransGen.head_induction_on generalizing solution with
  | refl =>
    obtain rfl := Option.some.inj (hsolution.symm.trans hbelow)
    exact Solution.not_improves_self ((htame other hnode).hasValue _ hsolution hsolved)
  | @head parent child hchild hrest ih =>
    have hchildBelow := hnode.tail hchild
    obtain ⟨middle, hmiddle, hmiddleSolved⟩ :
        ∃ middle, s.relaxed? child = some middle ∧ middle.state = .solved := by
      rcases hrest.cases_head with rfl | ⟨next, hnext, -⟩
      · exact ⟨below, hbelow, hbelowSolved⟩
      · exact solved_of_child hnext
    exact Solution.not_improves_trans
      ((htame other (hchildBelow.trans hrest)).hasValue _ hbelow hbelowSolved)
      ((htame child hchildBelow).hasValue _ hmiddle hmiddleSolved)
      ((htame parent hnode).hasValue _ hsolution hsolved)
      (ih hchildBelow hmiddle hmiddleSolved)
      ((htame parent hnode).children _ hsolution child hchild _ hmiddle hmiddleSolved)

/-! ## What a search covers -/

structure Candidate (s : Search α n) (root : Node α n) (solution : Solution α) : Prop where
  solved : solution.state = .solved
  integral : isIntegralOn? solution.x s.order = some true
  node : ∃ node, s.Below root node ∧ s.relaxed? node = some solution

theorem Candidate.hasValue {s : Search α n} {root : Node α n} {solution : Solution α}
    (h : s.Candidate root solution) (htame : s.Tame root) : solution.HasValue := by
  obtain ⟨node, hnode, hsolution⟩ := h.node
  exact (htame node hnode).hasValue _ hsolution h.solved

structure Knows (s : Search α n) (root : Node α n) (state : SearchState α) : Prop where
  bounded : state.unbounded = false
  incumbent : ∀ best, state.incumbent = some best → s.Candidate root best

def Covered (s : Search α n) (solution : Solution α) (state : SearchState α) : Prop :=
  ∃ best, state.incumbent = some best ∧ solution.improves s.objective best = false

section Step

variable {s : Search α n} {root node : Node α n} {state : SearchState α} (htame : s.Tame root)
  (hnode : s.Below root node) (hknows : s.Knows root state) (v : Verbosity)

include htame hnode hknows

theorem Tame.knows :
    (∀ child ∈ (s.evaluate v node state).children, s.Below root child) ∧
      s.Knows root (s.evaluate v node state).state := by
  obtain ⟨hbounded, htreated⟩ := treated_evaluate v hknows.bounded (htame node hnode).bounded
  cases htreated with
  | dominated _ _ _ _ hstate hchildren =>
    rw [hchildren]
    exact ⟨nofun, hbounded, fun best hbest => hknows.incumbent best (hstate ▸ hbest)⟩
  | accepted hsolution hsolved hx _ hstate hchildren =>
    rw [hchildren]
    refine ⟨nofun, hbounded, fun best hbest => ?_⟩
    obtain rfl := Option.some.inj (hstate.symm.trans hbest)
    exact ⟨hsolved, hx, node, hnode, hsolution⟩
  | passed _ hstate hchildren =>
    rw [hchildren]
    exact ⟨fun child hchild => hnode.tail hchild, hbounded,
      fun best hbest => hknows.incumbent best (hstate ▸ hbest)⟩

theorem Tame.covered {solution : Solution α} (hcandidate : s.Candidate root solution)
    (hcovered : s.Covered solution state) :
    s.Covered solution (s.evaluate v node state).state := by
  obtain ⟨-, htreated⟩ := treated_evaluate v hknows.bounded (htame node hnode).bounded
  obtain ⟨best, hbest, hworse⟩ := hcovered
  cases htreated with
  | dominated _ _ _ _ hstate _ | passed _ hstate _ => exact ⟨best, hstate.trans hbest, hworse⟩
  | @accepted found hsolution hsolved hx hbeats hstate _ =>
    have hfound : s.Candidate root found := ⟨hsolved, hx, node, hnode, hsolution⟩
    have hold := (hknows.incumbent best hbest).hasValue htame
    exact ⟨found, hstate, Solution.not_improves_trans (hcandidate.hasValue htame) hold
      (hfound.hasValue htame) hworse
      (Solution.not_improves_of_improves (hfound.hasValue htame) hold (hbeats best hbest))⟩

theorem Tame.covered_or_below {other : Node α n} {solution : Solution α}
    (hother : s.Below node other) (hsolution : s.relaxed? other = some solution)
    (hsolved : solution.state = .solved) (hx : isIntegralOn? solution.x s.order = some true) :
    s.Covered solution (s.evaluate v node state).state ∨
      ∃ child ∈ (s.evaluate v node state).children, s.Below child other := by
  have hcandidate : s.Candidate root solution :=
    ⟨hsolved, hx, other, hnode.trans hother, hsolution⟩
  obtain ⟨-, htreated⟩ := treated_evaluate v hknows.bounded (htame node hnode).bounded
  cases htreated with
  | @dominated found best hfound hfoundSolved hbest hworse hstate _ =>
    refine .inl ⟨best, hstate.trans hbest, ?_⟩
    exact Solution.not_improves_trans (hcandidate.hasValue htame)
      ((htame node hnode).hasValue _ hfound hfoundSolved)
      ((hknows.incumbent best hbest).hasValue htame)
      (htame.not_improves hnode hother hfound hfoundSolved hsolution hsolved) hworse
  | @accepted found hfound hfoundSolved _ _ hstate _ =>
    exact .inl ⟨found, hstate,
      htame.not_improves hnode hother hfound hfoundSolved hsolution hsolved⟩
  | passed hpassed _ hchildren =>
    rcases hother.cases_head with rfl | ⟨child, hchild, hrest⟩
    · exact absurd hx (hpassed _ hsolution hsolved)
    · exact .inr ⟨child, hchildren ▸ hchild, hrest⟩

end Step

/-! ## The answer -/

/-- The answer is the best integral solution of the full tree, if there is one. -/
inductive IsBest (s : Search α n) (root : Node α n) (answer : Solution α) : Prop
  | solved {best : Solution α} (hstate : answer.state = .solved) (hbest : s.Candidate root best)
      (hvalue : answer.objectiveValue = best.objectiveValue)
      (hothers : ∀ other, s.Candidate root other → other.improves s.objective answer = false)
  | noSolution (hstate : answer.state = .noSolution) (hvalue : answer.objectiveValue = none)
      (hnone : ∀ other, ¬s.Candidate root other)

/-- The same values as numbers: zeros of both signs are the same. -/
def SameValue : Option α → Option α → Prop := Option.Rel fun a b => Scalar.same a b = true

omit [Ranked α] in
theorem improves_congr {objective : Objective} {s t t' : Solution α}
    (h : t.objectiveValue = t'.objectiveValue) :
    s.improves objective t = s.improves objective t' := by
  rw [Solution.improves, Solution.improves, h]

theorem IsBest.unique {s : Search α n} {root : Node α n} {answer answer' : Solution α}
    (htame : s.Tame root) (h : s.IsBest root answer) (h' : s.IsBest root answer') :
    answer.state = answer'.state ∧ SameValue answer.objectiveValue answer'.objectiveValue := by
  cases h with
  | @solved best hstate hbest hvalue hothers =>
    cases h' with
    | @solved best' hstate' hbest' hvalue' hothers' =>
      refine ⟨hstate.trans hstate'.symm, ?_⟩
      obtain ⟨a, ha, haValue⟩ := hbest.hasValue htame
      obtain ⟨b, hb, hbValue⟩ := hbest'.hasValue htame
      have hle : best.improves s.objective best' = false :=
        (improves_congr hvalue').symm.trans (hothers' best hbest)
      have hge : best'.improves s.objective best = false :=
        (improves_congr hvalue).symm.trans (hothers best' hbest')
      rw [hvalue, hvalue', ha, hb]
      exact .some (Solution.same_of_not_improves ha hb haValue hbValue hle hge)
    | noSolution _ _ hnone => exact absurd hbest (hnone _)
  | noSolution hstate hvalue hnone =>
    cases h' with
    | solved _ hbest' => exact absurd hbest' (hnone _)
    | noSolution hstate' hvalue' _ =>
      refine ⟨hstate.trans hstate'.symm, ?_⟩
      rw [hvalue, hvalue']
      exact .none

/-- A complete search knows a solution that covers every candidate. -/
theorem Completes.isBest {s : Search α n} {lp : LinearProgram α n} {v : Verbosity}
    {last : SearchState α} {visits : List (Visit α n)} (hrun : s.Completes v lp last visits)
    (htame : s.Tame (.root lp)) (nrVariables nrConstraints : Nat) :
    s.IsBest (.root lp) (s.finish last nrVariables nrConstraints) := by
  have hroot : ∀ node ∈ ({.root lp} : Multiset (Node α n)), s.Below (.root lp) node := by
    intro node hnode
    rw [Multiset.mem_singleton.1 hnode]
  have hstart : s.Knows (.root lp) {} := ⟨rfl, nofun⟩
  have hstep (node : Node α n) (state : SearchState α) (hnode : s.Below (.root lp) node)
      (hknows : s.Knows (.root lp) state) (_ : True) := htame.knows hnode hknows v
  have hknows : s.Knows (.root lp) last :=
    (hrun.proceeds.preserves hstep hroot hstart fun _ _ => trivial).1
  have hcovered {other : Solution α} (hother : s.Candidate (.root lp) other) :
      s.Covered other last := by
    obtain ⟨hsolved, hx, node, hnode, hsolution⟩ := hother
    have hend : s.Covered other last ∨ (∃ visit ∈ visits.reverse, False) ∨
        ∃ above ∈ (0 : Multiset (Node α n)), s.Below above node :=
      hrun.proceeds.covers (fun above => s.Below above node) hstep
        (fun _ _ habove hknows _ => htame.covered habove hknows v
          ⟨hsolved, hx, node, hnode, hsolution⟩)
        (fun _ _ habove hknows _ hin =>
          (htame.covered_or_below habove hknows v hin hsolution hsolved hx).imp id .inr)
        (fun _ hknows => hknows.bounded) hroot hstart (fun _ _ => trivial)
        (.inr ⟨_, Multiset.mem_singleton_self _, hnode⟩)
    rcases hend with hcovered | ⟨_, _, hlost⟩ | ⟨_, hpending, _⟩
    · exact hcovered
    · exact hlost.elim
    · exact absurd hpending (Multiset.notMem_zero _)
  have hbounded : ¬last.unbounded = true := by simp [hknows.bounded]
  unfold finish
  rw [if_neg hbounded]
  cases hincumbent : last.incumbent with
  | some best =>
    have hbest := hknows.incumbent best hincumbent
    refine .solved hbest.solved hbest rfl fun other hother => ?_
    obtain ⟨best', hbest', hworse⟩ := hcovered hother
    obtain rfl := Option.some.inj (hincumbent.symm.trans hbest')
    exact hworse
  | none =>
    refine .noSolution rfl rfl fun other hother => ?_
    obtain ⟨best, hbest, -⟩ := hcovered hother
    rw [hincumbent] at hbest
    cases hbest

/-- The answer is the best integral solution of the full tree, in whatever order its nodes are
visited and by how many workers. -/
theorem answer_independent_of_order (s : Search α n) (lp : LinearProgram α n)
    (htame : s.Tame (.root lp)) (v v' : Verbosity) {last last' : SearchState α}
    {visits visits' : List (Visit α n)} (hrun : s.Completes v lp last visits)
    (hrun' : s.Completes v' lp last' visits') (nrVariables nrConstraints : Nat) :
    s.IsBest (.root lp) (s.finish last nrVariables nrConstraints) ∧
      (s.finish last nrVariables nrConstraints).state =
        (s.finish last' nrVariables nrConstraints).state ∧
      SameValue (s.finish last nrVariables nrConstraints).objectiveValue
        (s.finish last' nrVariables nrConstraints).objectiveValue := by
  have hbest := hrun.isBest htame nrVariables nrConstraints
  exact ⟨hbest, hbest.unique htame (hrun'.isBest htame nrVariables nrConstraints)⟩

def mixedSearch : Search Float 2 :=
  MixedIntegerProgram.mixedProgram.search MixedIntegerProgram.rationalRelax

def mixedRoot : LinearProgram Float 2 := MixedIntegerProgram.mixedProgram.root

set_option maxRecDepth 10000 in
/-- Last in, first out needs five of the seven nodes of the tree, first in, first out all of
them. -/
theorem mixedSearch_independent_of_order :
    mixedSearch.Tame (.root mixedRoot) ∧
      (mixedSearch.explore (DepthFirst _) none (.root mixedRoot)).visits.length = 5 ∧
      (mixedSearch.explore (BreadthFirst _) none (.root mixedRoot)).visits.length = 7 ∧
      mixedSearch.IsBest (.root mixedRoot)
        (mixedSearch.finish (mixedSearch.explore (DepthFirst _) none (.root mixedRoot)).state 2 1) ∧
      SameValue (some 3) (mixedSearch.finish
        (mixedSearch.explore (BreadthFirst _) none (.root mixedRoot)).state 2 1).objectiveValue := by
  have htame : mixedSearch.Tame (.root mixedRoot) := tame_of_tree (by decide +kernel)
  obtain ⟨hbest, -, hsame⟩ := answer_independent_of_order mixedSearch mixedRoot htame
    none none (.alone (DepthFirst _)) (.alone (BreadthFirst _)) 2 1
  have hvalue : (mixedSearch.finish
      (mixedSearch.explore (DepthFirst _) none (.root mixedRoot)).state 2 1).objectiveValue =
        some 3 := by decide +kernel
  exact ⟨htame, by decide +kernel, by decide +kernel, hbest, hvalue ▸ hsame⟩

end LinProg.Search
