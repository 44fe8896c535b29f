import LinProg.Proofs.Branching.Exploration
import LinProg.Proofs.Branching.Step
import LinProg.Proofs.Number.Double

/-!
# Exact answers of the search

With right answers to all relaxations the search loses admissible points in one way only: a node of
the last level whose optimum is not integral is dropped, and its points with it.  So the answer is
exact just when no admissible point of such a node is better (`exactAnswer_iff`).
-/

namespace LinProg

open Denoting Search

namespace MixedIntegerProgram

variable {α : Type} [Integral α] [Denoting α] {n : Nat} {p : MixedIntegerProgram α n}
  {relax : LinearProgram α n → Solution α × List Message}

/-! ## The whole search -/

def exploration (φ : Type) [Frontier φ (Node α n)] (p : MixedIntegerProgram α n)
    (relax : LinearProgram α n → Solution α × List Message) (v : Verbosity) :
    Exploration φ α n :=
  (p.search relax).explore φ v (.root p.root)

/-- A solution at least as good as every admissible point, or none if there is no such point. -/
structure ExactAnswer (p : MixedIntegerProgram α n) (solution : Solution α) : Prop where
  best : ∀ z, p.Admissible z → solution.state = .solved ∧ p.AsGoodAs solution z
  noSolution : (∀ z, ¬p.Admissible z) → solution.state = .noSolution

section Whole

variable {φ : Type} [Frontier φ (Node α n)] [LawfulFrontier φ (Node α n)]

theorem pending_root (p : MixedIntegerProgram α n) :
    ∀ node ∈ LawfulFrontier.contents (Frontier.push Frontier.empty (.root p.root) : φ),
      p.Pending node := by
  intro node hnode
  rw [LawfulFrontier.contents_push, LawfulFrontier.contents_empty, Multiset.mem_cons] at hnode
  rcases hnode with rfl | hnode
  · exact ⟨_, rfl, p.reached_root⟩
  · exact absurd hnode (Multiset.notMem_zero node)

theorem sane_init (p : MixedIntegerProgram α n) : p.Sane {} := ⟨rfl, nofun⟩

variable (hfree : ∀ v ∈ p.binaries.members, v ∉ p.relaxation.free.members) (v : Verbosity)
  (hexact : ∀ visit ∈ (p.exploration φ relax v).visits, visit.Exact relax)

include hfree hexact

theorem sane_exploration : p.Sane (p.exploration φ relax v).state ∧
    ∀ visit ∈ (p.exploration φ relax v).visits, ∃ node state,
      p.Pending node ∧ p.Sane state ∧ visit = (p.search relax).evaluate v node state :=
  (explores_explore (p.search relax) v (.root p.root) rfl).preserves
    (fun _ _ hnode hstate hfine =>
      let h := step_evaluate hfree v hnode hstate hfine
      ⟨h.children, h.sane⟩)
    p.pending_root p.sane_init hexact

/-- An admissible point is covered, or got lost with a dropped leaf. -/
theorem covers_exploration {z : Fin n → Rat} (hz : p.Admissible z) :
    p.Covers z (p.exploration φ relax v).state ∨
      ∃ visit ∈ (p.exploration φ relax v).visits, visit.verdict = .leaf ∧ visit.Holds z := by
  have hrun := explores_explore (φ := φ) (p.search relax) v (.root p.root) rfl
  have hroot : (Node.root p.root).Holds z := ⟨_, rfl, nofun, hz.root⟩
  refine hrun.covers (fun node => node.Holds z) ?_ ?_ ?_ (fun state h => h.bounded)
    p.pending_root p.sane_init hexact (.inr ⟨_, ?_, hroot⟩)
  · intro node state hnode hstate hfine
    have h := step_evaluate hfree v hnode hstate hfine
    exact ⟨h.children, h.sane⟩
  · intro node state hnode hstate hfine
    exact (step_evaluate hfree v hnode hstate hfine).covers z
  · intro node state hnode hstate hfine
    exact (step_evaluate hfree v hnode hstate hfine).holds z hz
  · rw [LawfulFrontier.contents_push]
    exact Multiset.mem_cons_self _ _

end Whole

theorem finish_of_sane (relax : LinearProgram α n → Solution α × List Message)
    {state : SearchState α} (h : p.Sane state) (nrVariables nrRows : Nat) :
    (∀ z, p.Covers z state →
      ((p.search relax).finish state nrVariables nrRows).state = .solved ∧
        p.AsGoodAs ((p.search relax).finish state nrVariables nrRows) z) ∧
    ((∀ z, ¬p.Admissible z) →
      ((p.search relax).finish state nrVariables nrRows).state = .noSolution) := by
  have hbounded : ¬state.unbounded = true := by simp [h.bounded]
  unfold finish
  rw [if_neg hbounded]
  constructor
  · rintro z ⟨best, hbest, hgood⟩
    rw [hbest]
    exact ⟨(h.incumbent best hbest).1, hgood⟩
  · intro hnone
    cases hincumbent : state.incumbent with
    | none => rfl
    | some best =>
      obtain ⟨-, a, -, -, z, hz, -⟩ := h.incumbent best hincumbent
      exact absurd hz (hnone z)

/-- Branch and bound is exact just when no admissible point is lost with a leaf that is better than
the answer; it always is if all integer variables are binary. -/
theorem exactAnswer_iff {φ : Type} [Frontier φ (Node α n)] [LawfulFrontier φ (Node α n)]
    (p : MixedIntegerProgram α n) (relax : LinearProgram α n → Solution α × List Message)
    (v : Verbosity) (hfree : ∀ v ∈ p.binaries.members, v ∉ p.relaxation.free.members)
    (hexact : ∀ visit ∈ (p.exploration φ relax v).visits, visit.Exact relax) :
    (p.ExactAnswer (p.solveBy φ relax v).1 ↔
      ∀ visit ∈ (p.exploration φ relax v).visits, visit.verdict = .leaf →
        ∀ z, p.Admissible z → visit.Holds z →
          (p.solveBy φ relax v).1.state = .solved ∧ p.AsGoodAs (p.solveBy φ relax v).1 z) ∧
    ((∀ v ∈ p.integers.members, v ∈ p.binaries.members) →
      p.ExactAnswer (p.solveBy φ relax v).1) := by
  obtain ⟨hsane, hvisits⟩ := sane_exploration hfree v hexact
  obtain ⟨hcovered, hnone⟩ :=
    finish_of_sane relax hsane n p.relaxation.nrConstraints
  have hiff : p.ExactAnswer (p.solveBy φ relax v).1 ↔
      ∀ visit ∈ (p.exploration φ relax v).visits, visit.verdict = .leaf →
        ∀ z, p.Admissible z → visit.Holds z →
          (p.solveBy φ relax v).1.state = .solved ∧ p.AsGoodAs (p.solveBy φ relax v).1 z := by
    constructor
    · intro h visit _ _ z hz _
      exact h.best z hz
    · intro h
      refine ⟨fun z hz => ?_, hnone⟩
      rcases covers_exploration hfree v hexact hz with hz' | ⟨visit, hvisit, hleaf, hin⟩
      · exact hcovered z hz'
      · exact h visit hvisit hleaf z hz hin
  refine ⟨hiff, fun hbinary => hiff.2 fun visit hvisit hleaf => ?_⟩
  obtain ⟨node, state, hnode, hstate, rfl⟩ := hvisits visit hvisit
  exact absurd hleaf (verdict_evaluate_ne_leaf hbinary v hnode hstate (hexact _ hvisit))

/-! ## A point that is lost -/

/-- One integer variable that is one half at least, and nothing to optimize. -/
def halfProgram : MixedIntegerProgram Float 1 where
  relaxation :=
    { objective := .maximize
      constant := 0
      cost := #v[0]
      constraints := [⟨#v[2], .atLeast, 1⟩]
      free := .empty }
  integers := .ofList [0]
  binaries := .empty

def halfSolution (x : Float) : Solution Float where
  state := .solved
  objective := .maximize
  objectiveValue := some 0
  x := [x]
  iterations := 0
  reducedCost := []
  shadowPrice := []

/-- Picks a point that is no integer as long as it can. -/
def halfRelax (lp : LinearProgram Float 1) : Solution Float × List Message :=
  match lp.constraints with
  | [_] => (halfSolution 0.5, [])
  | [_, ⟨_, .atLeast, _⟩] => (halfSolution 1.5, [])
  | _ => (.unsolved .noSolution .maximize 1 0, [])

theorem toRat_half : Binary64.toRat 0.5 = 1 / 2 := by
  rw [Binary64.toRat_eq false (2 ^ 52) (-53) (by decide) (by decide) (by decide) (by decide)]
  norm_num [Binary64.signed]

theorem toRat_three_halves : Binary64.toRat 1.5 = 3 / 2 := by
  rw [Binary64.toRat_eq false (3 * 2 ^ 51) (-52) (by decide) (by decide) (by decide) (by decide)]
  norm_num [Binary64.signed]

theorem toRat_two : Binary64.toRat 2 = 2 := by
  rw [Binary64.toRat_eq false (2 ^ 52) (-51) (by decide) (by decide) (by decide) (by decide)]
  norm_num [Binary64.signed]

theorem halfProgram_visits : (halfProgram.exploration (DepthFirst _) halfRelax none).visits.map
      (fun visit => (visit.problem, visit.verdict, visit.node.fixings)) =
    [(some halfProgram.relaxation, .branchedInteger 0 0.5, []),
      (some (halfProgram.relaxation.addBound 0 .atLeast (Integral.ceil 0.5)), .leaf, []),
      (some (halfProgram.relaxation.addBound 0 .atMost (Integral.floor 0.5)),
        .unsolved .noSolution, [])] :=
  rfl

theorem feasible_halfProgram {z : Fin 1 → Rat} :
    halfProgram.relaxation.read.Feasible z ↔ 1 ≤ 2 * z 0 := by
  have hdot : dot (#v[(2 : Float)].map toRat) z = 2 * z 0 := by
    have hcoefficient : toRat ((#v[(2 : Float)]).get (0 : Fin 1)) = 2 := toRat_two
    rw [dot, Fin.sum_univ_one, entry_read, hcoefficient]
  rw [LinearProgram.feasible_read]
  show (∀ c ∈ [(⟨#v[2], .atLeast, 1⟩ : Constraint Float 1)], c.read.Holds z) ∧
    (∀ v : Fin 1, v ∉ [] → 0 ≤ z v) ↔ _
  rw [List.forall_mem_singleton, Constraint.holds_read, hdot, toRat_one]
  show 1 ≤ 2 * z 0 ∧ _ ↔ 1 ≤ 2 * z 0
  constructor
  · exact And.left
  · intro h
    refine ⟨h, fun v _ => ?_⟩
    rw [Subsingleton.elim v 0]
    linarith

theorem isOptimum_halfSolution {lp : LinearProgram Float 1} {x : Float}
    (hlp : lp.constant = 0 ∧ lp.cost = #v[0]) (hx : x.isFinite = true)
    (hfeasible : lp.read.Feasible fun _ => Binary64.toRat x) : (halfSolution x).IsOptimum lp := by
  have hvalue (z : Fin 1 → Rat) : lp.read.value z = 0 := by
    rw [LinearProgram.value_read, hlp.1, hlp.2, dot, Fin.sum_univ_one, toRat_zero, entry_read]
    show 0 + Binary64.toRat 0 * z 0 = 0
    rw [Binary64.toRat_zero, zero_mul, zero_add]
  have hpoint : ((halfSolution x).point : Fin 1 → Rat) = fun _ => Binary64.toRat x := by
    funext v
    rw [Subsingleton.elim v 0]
    rfl
  refine ⟨rfl, ?_, ⟨hpoint ▸ hfeasible, fun y _ => ?_⟩, 0, rfl, isNumber_zero, ?_⟩
  · rintro a ha
    obtain rfl := List.mem_singleton.1 ha
    exact hx
  · rw [hvalue, hvalue]
    exact Objective.NoBetter.refl _ _
  · rw [hvalue, toRat_zero]

theorem answers_of_isOptimum {lp : LinearProgram Float 1} {x : Float}
    (h : (halfSolution x).IsOptimum lp) : (halfSolution x).Answers lp :=
  ⟨.inl rfl, fun _ => h, nofun⟩

theorem toRat_floor_half : toRat (Integral.floor (0.5 : Float)) = 0 := by
  have hfinite : (0.5 : Float).isFinite = true := by decide
  rw [toRat_floor hfinite]
  show ((⌊Binary64.toRat 0.5⌋ : Int) : Rat) = 0
  rw [toRat_half]
  norm_num

theorem toRat_ceil_half : toRat (Integral.ceil (0.5 : Float)) = 1 := by
  have hfinite : (0.5 : Float).isFinite = true := by decide
  rw [toRat_ceil hfinite]
  show ((⌈Binary64.toRat 0.5⌉ : Int) : Rat) = 1
  rw [toRat_half]
  norm_num

theorem exact_halfRelax : ∀ visit ∈ (halfProgram.exploration (DepthFirst _) halfRelax none).visits,
    visit.Exact halfRelax := by
  intro visit hvisit
  have h := List.mem_map_of_mem (f := fun visit => (visit.problem, visit.verdict,
    visit.node.fixings)) hvisit
  rw [halfProgram_visits] at h
  simp only [List.mem_cons, Prod.mk.injEq, List.not_mem_nil, or_false] at h
  rcases h with ⟨hproblem, hverdict, -⟩ | ⟨hproblem, hverdict, -⟩ | ⟨hproblem, hverdict, -⟩ <;>
    refine ⟨fun lp hlp => ?_, fun lp _ v hv => by rw [hverdict] at hv; cases hv⟩ <;>
    obtain rfl := Option.some.inj (hproblem.symm.trans hlp)
  · refine answers_of_isOptimum (isOptimum_halfSolution ⟨rfl, rfl⟩ (by decide) ?_)
    rw [feasible_halfProgram, toRat_half]
    norm_num
  · refine answers_of_isOptimum (isOptimum_halfSolution ⟨rfl, rfl⟩ (by decide) ?_)
    rw [LinearProgram.feasible_addBound, feasible_halfProgram, toRat_ceil_half, toRat_three_halves]
    show 1 ≤ 2 * (3 / 2 : Rat) ∧ 1 ≤ (3 / 2 : Rat)
    norm_num
  · refine ⟨.inr rfl, nofun, fun _ z hz => ?_⟩
    rw [LinearProgram.feasible_addBound, feasible_halfProgram, toRat_floor_half] at hz
    obtain ⟨hlow, hhigh⟩ := hz
    change z 0 ≤ 0 at hhigh
    linarith

/-- The point one is lost with a leaf. -/
theorem halfProgram_not_exactAnswer :
    (∀ visit ∈ (halfProgram.exploration (DepthFirst _) halfRelax none).visits,
      visit.Exact halfRelax) ∧
    ¬halfProgram.ExactAnswer (halfProgram.solveBy (DepthFirst _) halfRelax none).1 := by
  refine ⟨exact_halfRelax, fun h => ?_⟩
  have hlost := (exactAnswer_iff halfProgram halfRelax none nofun exact_halfRelax).1.1 h
  have hfeasible : halfProgram.relaxation.read.Feasible fun _ => 1 := by
    rw [feasible_halfProgram]
    norm_num
  have hadmissible : halfProgram.Admissible fun _ => 1 :=
    ⟨hfeasible, fun _ _ => ⟨1, by norm_num⟩, nofun⟩
  obtain ⟨visit, hvisit, heq⟩ := List.mem_map.1
    (halfProgram_visits ▸ List.mem_cons_of_mem _ List.mem_cons_self)
  simp only [Prod.mk.injEq] at heq
  obtain ⟨hproblem, hverdict, hfixings⟩ := heq
  have hagrees : visit.node.Agrees fun _ => 1 := by
    intro v value hmem
    rw [hfixings] at hmem
    cases hmem
  have hbound : Relation.atLeast.Holds 1 (toRat (Integral.ceil (0.5 : Float))) := by
    rw [toRat_ceil_half]
    exact le_rfl
  have hsolved := hlost visit hvisit hverdict _ hadmissible
    ⟨_, hproblem, hagrees, LinearProgram.feasible_addBound.2 ⟨hfeasible, hbound⟩⟩
  cases hsolved.1

end MixedIntegerProgram

end LinProg
