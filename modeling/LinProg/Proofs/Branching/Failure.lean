import LinProg.Proofs.Branching.Accounts
import LinProg.Relaxation

/-!
# Nodes that fail

An evaluation fails where an eliminated variable has no place in the solution, which a search with
full solutions doesn't come to (`fixings_lt`), and where the order names a variable that doesn't
exist: in the test for integral values, which stops at the first one that is none, when the value to
branch on is read, or when the variable is fixed.  Wherever that happens, only the evaluation was
counted (`state_of_failed`).  So a search goes on as if the node had been pruned: nothing else is
lost, and the incumbent is always one that was accepted (`failure_harmless`).
-/

namespace LinProg

theorem Visit.children_of_failed {α : Type} {n : Nat} {visit : Visit α n}
    (h : visit.failed = true) : visit.children = [] := by
  rw [children, Option.isNone_iff_eq_none.1 h, Option.getD_none]

namespace Search

variable {α : Type} [Integral α] {n : Nat} {s : Search α n} {v : Verbosity}

/-! ## One evaluation -/

theorem state_of_failed {node : Node α n} {state : SearchState α}
    (h : (s.evaluate v node state).failed = true) :
    (s.evaluate v node state).state = { state with iterations := state.iterations + 1 } := by
  cases hlp : node.problem with
  | none =>
    obtain ⟨_, path⟩ := node
    cases hlp
    cases h
  | some lp =>
    have hjudged := judged_evaluate s v hlp state
    generalize s.evaluate v node state = visit at h hjudged ⊢
    obtain ⟨_, _, verdict, children?, after, _⟩ := visit
    cases hjudged with
    | unbounded | unsolved | dominated | accepted | leaf => cases h
    | misplaced | unreadable | branched => rfl

/-- The visit made a solution the incumbent that improves on the former one. -/
structure Replaces (s : Search α n) (visit : Visit α n) (before : SearchState α)
    (best : Solution α) : Prop where
  incumbent : visit.state.incumbent = some best
  succeeded : visit.failed = false
  accepts : s.Accepts visit best
  beats : s.Beats best before

theorem incumbent_eq_or_replaces (s : Search α n) (v : Verbosity) (node : Node α n)
    (state : SearchState α) :
    (s.evaluate v node state).state.incumbent = state.incumbent ∨
      ∃ best, s.Replaces (s.evaluate v node state) state best := by
  cases hlp : node.problem with
  | none =>
    obtain ⟨_, path⟩ := node
    cases hlp
    exact .inl rfl
  | some lp =>
    have hjudged := judged_evaluate s v hlp state
    have hproblem := (problem_evaluate s v node state).trans hlp
    rw [← node_evaluate s v node state] at hjudged
    generalize s.evaluate v node state = visit at hjudged hproblem ⊢
    obtain ⟨taken, _, verdict, children?, after, _⟩ := visit
    dsimp only at hjudged
    cases hjudged with
    | misplaced | unbounded | unsolved | dominated | unreadable | leaf | branched => exact .inl rfl
    | accepted hsolved hbeats hx =>
      exact .inr ⟨_, rfl, rfl, ⟨rfl, hsolved, hx, lp, hproblem, rfl⟩, hbeats⟩

/-! ## Runs -/

def stateAfter (state : SearchState α) (visits : List (Visit α n)) : SearchState α :=
  visits.foldl (fun _ visit => visit.state) state

/-- There is no incumbent, or one of the visits accepted it and didn't fail. -/
def HoldsAccepted (s : Search α n) (visits : List (Visit α n)) (state : SearchState α) : Prop :=
  ∀ best, state.incumbent = some best →
    ∃ visit ∈ visits, visit.failed = false ∧ s.Accepts visit best

section Run

variable {φ : Type} [Frontier φ (Node α n)] {pending : φ} {state last : SearchState α}
  {visits : List (Visit α n)}

theorem Explores.last_eq (hrun : Explores s v pending state visits last) :
    last = stateAfter state visits := by
  induction hrun with
  | drained | stopped => rfl
  | visit _ _ _ ih => exact ih

/-- Every visit of a run evaluates its node in the state that the visits before it have left. -/
theorem Explores.visit_eq (hrun : Explores s v pending state visits last)
    {earlier later : List (Visit α n)} {visit : Visit α n}
    (hsplit : visits = earlier ++ visit :: later) :
    visit = s.evaluate v visit.popped (stateAfter state earlier) := by
  induction hrun generalizing earlier with
  | drained | stopped =>
    exact absurd hsplit.symm (List.append_ne_nil_of_right_ne_nil _ (List.cons_ne_nil _ _))
  | @visit _ _ node state _ _ _ _ _ ih =>
    cases earlier with
    | nil =>
      obtain ⟨rfl, -⟩ := List.cons.inj hsplit
      rw [popped_evaluate]
      rfl
    | cons first rest =>
      obtain ⟨rfl, hrest⟩ := List.cons.inj hsplit
      exact ih hrest

theorem HoldsAccepted.visit {visit : Visit α n} (hbefore : s.HoldsAccepted visits state)
    (hvisit : visit.state.incumbent = state.incumbent ∨ ∃ best, s.Replaces visit state best) :
    s.HoldsAccepted (visits ++ [visit]) visit.state := by
  intro best hbest
  rcases hvisit with hsame | ⟨new, hnew⟩
  · obtain ⟨other, hother, haccepted⟩ := hbefore best (hsame ▸ hbest)
    exact ⟨other, List.mem_append_left _ hother, haccepted⟩
  · obtain rfl := Option.some.inj (hnew.incumbent.symm.trans hbest)
    exact ⟨visit, List.mem_append_right _ List.mem_cons_self, hnew.succeeded, hnew.accepts⟩

theorem Explores.holdsAccepted (hrun : Explores s v pending state visits last)
    (hstate : state.incumbent = none) {earlier later : List (Visit α n)}
    (hsplit : visits = earlier ++ later) : s.HoldsAccepted earlier (stateAfter state earlier) := by
  induction earlier using List.reverseRecOn generalizing later with
  | nil =>
    intro best hbest
    cases hstate.symm.trans hbest
  | append_singleton earlier visit ih =>
    rw [List.append_assoc] at hsplit
    have hbefore := ih hsplit
    have hvisit := hrun.visit_eq hsplit
    have hafter : stateAfter state (earlier ++ [visit]) = visit.state := List.foldl_concat ..
    rw [hafter]
    refine hbefore.visit ?_
    have hevaluate := incumbent_eq_or_replaces s v visit.popped (stateAfter state earlier)
    rwa [← hvisit] at hevaluate

end Run

/-- Decisions fix variables that exist, so their values have a place in a full solution. -/
theorem fixings_lt (φ : Type) [Frontier φ (Node α n)] [LawfulFrontier φ (Node α n)]
    (s : Search α n) (v : Verbosity) (lp : LinearProgram α n) :
    ∀ visit ∈ (s.explore φ v (.root lp)).visits, ∀ fixing ∈ visit.node.fixings, fixing.1 < n := by
  have hstep (node : Node α n) (state : SearchState α)
      (hnode : ∀ fixing ∈ node.fixings, fixing.1 < n) (_ : True) (_ : True) :
      (∀ child ∈ (s.evaluate v node state).children, ∀ fixing ∈ child.fixings, fixing.1 < n) ∧
        True := by
    refine ⟨fun child hchild => ?_, trivial⟩
    rw [← fixings_evaluate s v node state] at hnode
    cases branched_of_child hchild with
    | @binary _ w _ _ _ _ hchildren =>
      rw [hchildren] at hchild
      obtain ⟨side, rfl⟩ := mem_binaryChildren.1 hchild
      exact List.forall_mem_cons.2 ⟨w.isLt, hnode⟩
    | integer _ _ _ _ _ hchildren =>
      rw [hchildren] at hchild
      obtain ⟨side, rfl⟩ := mem_integerChildren.1 hchild
      exact hnode
  have hroot : ∀ node ∈ LawfulFrontier.contents (Frontier.push Frontier.empty (.root lp) : φ),
      ∀ fixing ∈ node.fixings, fixing.1 < n := by
    intro node hnode
    rw [LawfulFrontier.contents_push, LawfulFrontier.contents_empty] at hnode
    obtain rfl := Multiset.mem_singleton.1 hnode
    exact fun _ hfixing => absurd hfixing List.not_mem_nil
  obtain ⟨-, hvisits⟩ := (explores_explore (φ := φ) s v (.root lp) rfl).preserves hstep hroot
    trivial fun _ _ => trivial
  intro visit hvisit
  obtain ⟨node, state, hnode, -, rfl⟩ := hvisits visit hvisit
  rw [fixings_evaluate]
  exact hnode

/-- An evaluation that fails only counts, in whatever state and whatever the node, the order and the
relaxation are.  In an exploration where no relaxation is unbounded, all nodes that were pushed are
evaluated, each in the state that the evaluation before has left, and at every moment the incumbent
is missing or was accepted by an evaluation that did not fail; a new one improves on the former. -/
theorem failure_harmless (s : Search α n) (v : Verbosity) :
    (∀ node state, (s.evaluate v node state).failed = true →
      (s.evaluate v node state).state = { state with iterations := state.iterations + 1 } ∧
        (s.evaluate v node state).children = []) ∧
    ∀ (φ : Type) [Frontier φ (Node α n)] [LawfulFrontier φ (Node α n)] (lp : LinearProgram α n),
      let visits := (s.explore φ v (.root lp)).visits
      (∀ visit ∈ visits, visit.verdict ≠ .unbounded) →
        popped visits = pushed lp visits ∧
        (s.explore φ v (.root lp)).state = stateAfter {} visits ∧
        (∀ earlier later, visits = earlier ++ later →
          s.HoldsAccepted earlier (stateAfter {} earlier)) ∧
        ∀ earlier visit later, visits = earlier ++ visit :: later →
          visit = s.evaluate v visit.popped (stateAfter {} earlier) ∧
            (visit.state.incumbent = (stateAfter {} earlier).incumbent ∨
              ∃ best, s.Replaces visit (stateAfter {} earlier) best) := by
  refine ⟨fun node state h => ⟨state_of_failed h, Visit.children_of_failed h⟩, ?_⟩
  intro φ _ _ lp visits hbounded
  have hrun := explores_explore (φ := φ) s v (.root lp) rfl
  have haccounts : s.Accounts lp ⟨0, (s.explore φ v (.root lp)).state, visits.reverse⟩ :=
    (Completes.alone φ).proceeds.accounts
  refine ⟨?_, hrun.last_eq, fun earlier later => hrun.holdsAccepted rfl, ?_⟩
  · have hall := haccounts.eq_pushed_of_bounded fun visit hvisit =>
      hbounded visit (List.mem_reverse.1 hvisit)
    rwa [Multiset.coe_reverse, zero_add] at hall
  · intro earlier visit later hsplit
    have hvisit := hrun.visit_eq hsplit
    refine ⟨hvisit, ?_⟩
    have hevaluate := incumbent_eq_or_replaces s v visit.popped (stateAfter {} earlier)
    rwa [← hvisit] at hevaluate

def misnamedSearch : Search Float 2 where
  objective := .maximize
  order := [0, 5]
  nrBinary := 0
  relax lp := lp.solve {} none

def misnamedProgram : LinearProgram Float 2 where
  objective := .maximize
  constant := 4
  cost := #v[5, 7]
  constraints := [⟨#v[3, 3], .atMost, 33⟩, ⟨#v[4, 9], .atMost, 61⟩]
  free := .empty

def misnamedRun : Exploration (DepthFirst (Node Float 2)) Float 2 :=
  misnamedSearch.explore _ none (.root misnamedProgram)

/-- What a search knows that has found a solution in seven evaluations. -/
def knowingState : SearchState Float :=
  ⟨some ⟨.solved, .maximize, some 4, [0, 0], 0, [], []⟩, false, 7⟩

/-- The first variable is integral at both children of the root, which fail on the second one; they
would also leave another state alone. -/
theorem misnamedRun_harmless :
    misnamedRun.visits.map Visit.failed = [false, true, true] ∧
      popped misnamedRun.visits = pushed misnamedProgram misnamedRun.visits ∧
      misnamedSearch.HoldsAccepted misnamedRun.visits misnamedRun.state ∧
      (misnamedSearch.evaluate none (.root (misnamedProgram.addBound 0 .atMost 7))
        knowingState).state = { knowingState with iterations := 8 } := by
  obtain ⟨hone, hrun⟩ := failure_harmless misnamedSearch none
  obtain ⟨hall, hstate, haccepted, -⟩ :=
    hrun (DepthFirst _) misnamedProgram (by decide +kernel)
  refine ⟨by decide +kernel, hall, ?_, (hone _ _ (by decide +kernel)).1⟩
  rw [show misnamedRun.state = _ from hstate]
  exact haccepted _ [] (List.append_nil _).symm

end Search

end LinProg
