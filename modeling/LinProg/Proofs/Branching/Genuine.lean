import LinProg.Proofs.Branching.AnyOrder
import LinProg.Proofs.Branching.Exactness
import LinProg.Relaxation

/-!
# Genuine solutions

A search whose relaxations are solved without rounding answers with a point of the original program
and its value there, though the node that was accepted had variables eliminated and bounds added
(`genuine_of_solved`).  Fixing a variable must not round either: it shifts the constant and the
right hand sides.  No row keeps a free binary variable from being negative, so it may come out as a
negative integer if the node that was accepted has not eliminated it (`binary_or_negative`).
-/

namespace LinProg

open Denoting Search

variable {α : Type} [Integral α] [Denoting α] {n : Nat}

/-- If the relaxation was solved, the answer is a point of it with its value, and nothing is rounded
when a variable is fixed. -/
structure Visit.Faithful (relax : LinearProgram α n → Solution α × List Message)
    (visit : Visit α n) : Prop where
  points : ∀ lp, visit.problem = some lp → (relax lp).1.state = .solved → (relax lp).1.IsPoint lp
  fixes : ∀ lp, visit.problem = some lp → ∀ v : Fin n, visit.verdict = .branchedBinary v.val →
    lp.FixesExactly v 0 ∧ lp.FixesExactly v 1

instance [DecidableEq α] [DecidablePred (IsNumber : α → Prop)]
    (relax : LinearProgram α n → Solution α × List Message) (visit : Visit α n) :
    Decidable (visit.Faithful relax) :=
  decidable_of_iff
    ((∀ lp, visit.problem = some lp → (relax lp).1.state = .solved → (relax lp).1.IsPoint lp) ∧
      ∀ lp, visit.problem = some lp → ∀ v : Fin n, visit.verdict = .branchedBinary v.val →
        lp.FixesExactly v 0 ∧ lp.FixesExactly v 1)
    ⟨fun h => ⟨h.1, h.2⟩, fun h => ⟨h.points, h.fixes⟩⟩

omit [Denoting α] in
theorem Search.finish_of_solved {s : Search α n} {state : SearchState α}
    {nrVariables nrConstraints : Nat}
    (h : (s.finish state nrVariables nrConstraints).state = .solved) :
    ∃ best, state.incumbent = some best ∧
      (s.finish state nrVariables nrConstraints).x = best.x ∧
      (s.finish state nrVariables nrConstraints).objectiveValue = best.objectiveValue := by
  unfold finish at h ⊢
  split at h
  next => cases h
  next hbounded =>
    rw [if_neg hbounded]
    cases hincumbent : state.incumbent with
    | none =>
      rw [hincumbent] at h
      cases h
    | some best => exact ⟨best, rfl, rfl, rfl⟩

namespace MixedIntegerProgram

variable {p : MixedIntegerProgram α n} {relax : LinearProgram α n → Solution α × List Message}

def answer (p : MixedIntegerProgram α n) (relax : LinearProgram α n → Solution α × List Message)
    (last : SearchState α) : Solution α :=
  (p.search relax).finish last n p.relaxation.nrConstraints

/-- A point of the original program with integral values where it has to, and its value there. -/
structure Genuine (p : MixedIntegerProgram α n) (solution : Solution α) : Prop where
  length_eq : solution.x.length = n
  isNumber : ∀ a ∈ solution.x, IsNumber a
  feasible : p.relaxation.read.Feasible solution.point
  atMostOne : ∀ v ∈ p.binaries.members, solution.point v ≤ 1
  integral : ∀ v, v ∈ p.integers.members ∨ v ∈ p.binaries.members →
    ∃ k : Int, solution.point v = k
  value : ∃ a, solution.objectiveValue = some a ∧ IsNumber a ∧
    toRat a = p.relaxation.read.value solution.point

/-! ## Nodes of the search -/

theorem Pending.children {v : Verbosity} {node : Node α n} {state : SearchState α}
    (hnode : p.Pending node) (hfaithful : ((p.search relax).evaluate v node state).Faithful relax) :
    ∀ child ∈ ((p.search relax).evaluate v node state).children, p.Pending child := by
  obtain ⟨lp, hproblem, hreached, -, -⟩ := hnode.judged relax v state rfl
  intro child hchild
  cases branched_of_child hchild with
  | @binary _ w hlp hindex _ hverdict hchildren =>
    obtain rfl := Option.some.inj (hproblem.symm.trans hlp)
    exact pending_binaryChildren hreached (getElem?_order.1 hindex)
      (hfaithful.fixes _ hlp w hverdict) child (hchildren ▸ hchild)
  | integer hlp hindex hlevel _ _ hchildren =>
    obtain rfl := Option.some.inj (hproblem.symm.trans hlp)
    exact pending_integerChildren hreached (getElem?_order.1 hindex) hlevel child
      (hchildren ▸ hchild)

theorem Pending.accepted {v : Verbosity} {node : Node α n} {state : SearchState α}
    {best : Solution α} (hnode : p.Pending node)
    (hfaithful : ((p.search relax).evaluate v node state).Faithful relax)
    (haccepts : (p.search relax).Accepts ((p.search relax).evaluate v node state) best) :
    ∃ lp, p.Reached ((p.search relax).evaluate v node state).node lp ∧
      (relax lp).1.IsPoint lp ∧
      best = withFixings ((p.search relax).evaluate v node state).node (relax lp).1 := by
  obtain ⟨lp, hproblem, rfl⟩ := haccepts.answer
  obtain ⟨lp', hproblem', hreached, -, -⟩ := hnode.judged relax v state rfl
  obtain rfl := Option.some.inj (hproblem.symm.trans hproblem')
  exact ⟨lp, hreached, hfaithful.points lp hproblem haccepts.solved, rfl⟩

theorem pending_of_visit {v : Verbosity} {last : SearchState α} {visits : List (Visit α n)}
    (hrun : (p.search relax).Completes v p.root last visits)
    (hfaithful : ∀ visit ∈ visits, visit.Faithful relax) {visit : Visit α n}
    (hvisit : visit ∈ visits) :
    ∃ node state, p.Pending node ∧ visit = (p.search relax).evaluate v node state := by
  have hstep (node : Node α n) (state : SearchState α) (hnode : p.Pending node) (_ : True)
      (hfine : ((p.search relax).evaluate v node state).Faithful relax) :=
    And.intro (hnode.children hfine) trivial
  have hroot : ∀ node ∈ ({.root p.root} : Multiset (Node α n)), p.Pending node := by
    intro node hnode
    rw [Multiset.mem_singleton.1 hnode]
    exact ⟨_, rfl, p.reached_root⟩
  obtain ⟨-, -, hvisits⟩ :=
    hrun.proceeds.preserves hstep hroot trivial (by simpa using hfaithful)
  obtain ⟨node, state, hnode, -, rfl⟩ := hvisits visit (List.mem_reverse.2 hvisit)
  exact ⟨node, state, hnode, rfl⟩

/-! ## The answer -/

/-- The solution is what a visit found as a point of its node. -/
structure FoundBy (p : MixedIntegerProgram α n)
    (relax : LinearProgram α n → Solution α × List Message) (visit : Visit α n)
    (lp : LinearProgram α n) (solution : Solution α) : Prop where
  reached : p.Reached visit.node lp
  isPoint : (relax lp).1.IsPoint lp
  integral :
    isIntegralOn? (withFixings visit.node (relax lp).1).x (p.search relax).order = some true
  verdict : visit.verdict = .accepted solution.objectiveValue
  x : solution.x = (withFixings visit.node (relax lp).1).x
  objectiveValue : solution.objectiveValue = (relax lp).1.objectiveValue

theorem foundBy_of_solved {v : Verbosity} {last : SearchState α} {visits : List (Visit α n)}
    (hrun : (p.search relax).Completes v p.root last visits)
    (hfaithful : ∀ visit ∈ visits, visit.Faithful relax)
    (hsolved : (p.answer relax last).state = .solved) :
    ∃ visit ∈ visits, ∃ lp, p.FoundBy relax visit lp (p.answer relax last) := by
  obtain ⟨best, hbest, hx, hvalue⟩ := finish_of_solved hsolved
  obtain ⟨visit, hvisit, haccepts⟩ := hrun.proceeds.accepted hbest
  have hvisit := List.mem_reverse.1 hvisit
  obtain ⟨node, state, hnode, rfl⟩ := pending_of_visit hrun hfaithful hvisit
  obtain ⟨lp, hreached, hpoint, rfl⟩ := hnode.accepted (hfaithful _ hvisit) haccepts
  exact ⟨_, hvisit, lp, hreached, hpoint, haccepts.integral, hvalue ▸ haccepts.verdict, hx, hvalue⟩

namespace FoundBy

variable {visit : Visit α n} {lp : LinearProgram α n} {solution : Solution α}

theorem length_eq (h : p.FoundBy relax visit lp solution) : solution.x.length = n := by
  rw [h.x, length_withFixings, h.isPoint.length_eq]

theorem point_eq (h : p.FoundBy relax visit lp solution) :
    solution.point (n := n) = (withFixings visit.node (relax lp).1).point := by
  funext w
  rw [Solution.point, Solution.point, h.x]

theorem isNumber (h : p.FoundBy relax visit lp solution) {w : Fin n} {a : α}
    (ha : solution.x[w.val]? = some a) : IsNumber a :=
  h.reached.isNumber_withFixings h.isPoint (h.x ▸ ha)

theorem genuine (h : p.FoundBy relax visit lp solution) : p.Genuine solution := by
  obtain ⟨hfeasible, hbinary⟩ :=
    feasible_root.1 (h.reached.root _ (h.reached.contains_point h.isPoint))
  refine ⟨h.length_eq, fun a ha => ?_, h.point_eq ▸ hfeasible, h.point_eq ▸ hbinary,
    fun w hw => ?_, ?_⟩
  · obtain ⟨i, hi, hget⟩ := List.mem_iff_getElem.1 ha
    exact h.isNumber (w := ⟨i, h.length_eq ▸ hi⟩) (List.getElem?_eq_some_iff.2 ⟨hi, hget⟩)
  · rw [h.point_eq]
    exact h.reached.integral_point h.isPoint h.integral (mem_branchingOrder.2 hw.symm)
  · rw [h.point_eq, h.objectiveValue]
    exact h.reached.value_point h.isPoint

/-- No row bounds a free variable from below, so it may be negative unless it was eliminated. -/
theorem binary (h : p.FoundBy relax visit lp solution) {w : Fin n}
    (hw : w ∈ p.binaries.members) :
    solution.point w = 0 ∨ solution.point w = 1 ∨
      w ∈ p.relaxation.free.members ∧ (∀ value, (w.val, value) ∉ visit.node.fixings) ∧
        ∃ k : Int, k < 0 ∧ solution.point w = k := by
  rw [h.point_eq]
  rcases h.reached.binary_point h.isPoint h.integral hw with hzero | hone | ⟨k, hk, hpoint⟩
  · exact .inl hzero
  · exact .inr (.inl hone)
  have hnegative : ¬(0 : Rat) ≤ (withFixings visit.node (relax lp).1).point w := by
    rw [hpoint, not_le]
    exact_mod_cast hk
  refine .inr (.inr ⟨?_, fun value hvalue => ?_, k, hk, hpoint⟩)
  · by_contra hfree
    exact hnegative ((h.point_eq ▸ h.genuine.feasible).signs w hfree)
  · rw [h.reached.agrees_point h.isPoint.length_eq w value hvalue] at hnegative
    rcases (h.reached.fixed _ _ hvalue).1 with rfl | rfl
    · exact hnegative toRat_zero.ge
    · exact hnegative (toRat_one (α := α) ▸ zero_le_one)

end FoundBy

/-- What a search answers is a point of the original program, integral where it has to be, with its
value there. -/
theorem genuine_of_solved (p : MixedIntegerProgram α n)
    (relax : LinearProgram α n → Solution α × List Message) (v : Verbosity)
    {last : SearchState α} {visits : List (Visit α n)}
    (hrun : (p.search relax).Completes v p.root last visits)
    (hfaithful : ∀ visit ∈ visits, visit.Faithful relax)
    (hsolved : (p.answer relax last).state = .solved) : p.Genuine (p.answer relax last) := by
  obtain ⟨visit, -, lp, hfound⟩ := foundBy_of_solved hrun hfaithful hsolved
  exact hfound.genuine

def rationalRelax (lp : LinearProgram Float n) : Solution Float × List Message :=
  lp.solve { backend := .rational } none

/-- The first variable is fixed at one, and the second bounded by zero, on the way to the answer. -/
def mixedProgram : MixedIntegerProgram Float 2 where
  relaxation :=
    { objective := .maximize
      constant := 0
      cost := #v[3, 1]
      constraints := [⟨#v[2, 2], .atMost, 3⟩]
      free := .empty }
  integers := .ofList [1]
  binaries := .ofList [0]

set_option maxRecDepth 10000 in
theorem mixedProgram_genuine :
    (∀ visit ∈ (mixedProgram.exploration (DepthFirst _) rationalRelax none).visits,
        visit.Faithful rationalRelax) ∧
      (mixedProgram.solveBy (DepthFirst _) rationalRelax none).1.state = .solved ∧
      (mixedProgram.solveBy (DepthFirst _) rationalRelax none).1.x = [1, 0] ∧
      mixedProgram.Genuine (mixedProgram.solveBy (DepthFirst _) rationalRelax none).1 := by
  have hfaithful : ∀ visit ∈ (mixedProgram.exploration (DepthFirst _) rationalRelax none).visits,
      visit.Faithful rationalRelax := by decide +kernel
  have hsolved : (mixedProgram.solveBy (DepthFirst _) rationalRelax none).1.state = .solved := by
    decide +kernel
  exact ⟨hfaithful, hsolved, by decide +kernel,
    genuine_of_solved mixedProgram rationalRelax none (.alone (DepthFirst _)) hfaithful hsolved⟩

/-- Fixing the first variable at one adds to a constant beyond which odd numbers are no doubles. -/
def bigProgram : MixedIntegerProgram Float 2 where
  relaxation :=
    { objective := .minimize
      constant := 9007199254740992
      cost := #v[1, 0]
      constraints := [⟨#v[0, 2], .atLeast, 1⟩]
      free := .empty }
  integers := .ofList [1]
  binaries := .ofList [0]

set_option maxRecDepth 10000 in
/-- Every relaxation is solved without rounding, and still the value of the answer is not that of
its point. -/
theorem bigProgram_not_genuine :
    (∀ visit ∈ (bigProgram.exploration (DepthFirst _) rationalRelax none).visits,
        ∀ lp, visit.problem = some lp →
          ((rationalRelax lp).1.state = .solved → (rationalRelax lp).1.IsPoint lp) ∧
            (rationalRelax lp).1.state ≠ .unbounded) ∧
      (bigProgram.solveBy (DepthFirst _) rationalRelax none).1.state = .solved ∧
      ¬bigProgram.Genuine (bigProgram.solveBy (DepthFirst _) rationalRelax none).1 := by
  refine ⟨by decide +kernel, by decide +kernel, fun h => ?_⟩
  exact absurd h.value (by decide +kernel)

/-! ## Binary variables -/

/-- A binary variable comes out as zero or one, or it is free and negative, and the node that was
accepted has not eliminated it. -/
theorem binary_or_negative (p : MixedIntegerProgram α n)
    (relax : LinearProgram α n → Solution α × List Message) (v : Verbosity)
    {last : SearchState α} {visits : List (Visit α n)}
    (hrun : (p.search relax).Completes v p.root last visits)
    (hfaithful : ∀ visit ∈ visits, visit.Faithful relax)
    (hsolved : (p.answer relax last).state = .solved) :
    ∃ visit ∈ visits, visit.verdict = .accepted (p.answer relax last).objectiveValue ∧
      ∀ w ∈ p.binaries.members, ∃ a, (p.answer relax last).x[w.val]? = some a ∧ IsNumber a ∧
        (toRat a = 0 ∨ toRat a = 1 ∨
          w ∈ p.relaxation.free.members ∧ (∀ value, (w.val, value) ∉ visit.node.fixings) ∧
            ∃ k : Int, k < 0 ∧ toRat a = k) := by
  obtain ⟨visit, hvisit, lp, hfound⟩ := foundBy_of_solved hrun hfaithful hsolved
  refine ⟨visit, hvisit, hfound.verdict, fun w hw => ?_⟩
  have hget := List.getElem?_eq_getElem (hfound.length_eq.symm ▸ w.isLt :
    w.val < (p.answer relax last).x.length)
  have hpoint := hfound.binary hw
  rw [Solution.point, List.getD_eq_getElem?_getD, hget, Option.getD_some] at hpoint
  exact ⟨_, hget, hfound.isNumber hget, hpoint⟩

/-- A free binary variable that only one row bounds from below. -/
def freeProgram : MixedIntegerProgram Float 1 where
  relaxation :=
    { objective := .minimize
      constant := 0
      cost := #v[1]
      constraints := [⟨#v[1], .atLeast, -3⟩]
      free := .ofList [Fin.last 0] }
  integers := .empty
  binaries := .ofList [Fin.last 0]

set_option maxRecDepth 10000 in
theorem freeProgram_negative :
    (∀ visit ∈ (freeProgram.exploration (DepthFirst _) rationalRelax none).visits,
        visit.Faithful rationalRelax) ∧
      (freeProgram.solveBy (DepthFirst _) rationalRelax none).1.state = .solved ∧
      (freeProgram.solveBy (DepthFirst _) rationalRelax none).1.x = [-3] ∧
      ∃ visit ∈ (freeProgram.exploration (DepthFirst _) rationalRelax none).visits,
        ∀ value, (0, value) ∉ visit.node.fixings := by
  have hfaithful : ∀ visit ∈ (freeProgram.exploration (DepthFirst _) rationalRelax none).visits,
      visit.Faithful rationalRelax := by decide +kernel
  have hsolved : (freeProgram.solveBy (DepthFirst _) rationalRelax none).1.state = .solved := by
    decide +kernel
  have hx : (freeProgram.solveBy (DepthFirst _) rationalRelax none).1.x = [-3] := by decide +kernel
  refine ⟨hfaithful, hsolved, hx, ?_⟩
  obtain ⟨visit, hvisit, -, hbinary⟩ :=
    binary_or_negative freeProgram rationalRelax none (.alone (DepthFirst _)) hfaithful hsolved
  obtain ⟨a, ha, -, hvalue⟩ := hbinary 0 (by decide +kernel)
  obtain rfl : -3 = a := by
    have hget : (freeProgram.solveBy (DepthFirst _) rationalRelax none).1.x[0]? = some a := ha
    rw [hx] at hget
    exact Option.some.inj hget
  rcases hvalue with hzero | hone | ⟨-, hfree, -⟩
  · exact absurd hzero (by decide +kernel)
  · exact absurd hone (by decide +kernel)
  · exact ⟨visit, hvisit, hfree⟩

end MixedIntegerProgram

end LinProg
