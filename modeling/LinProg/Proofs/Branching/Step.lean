import LinProg.Proofs.Branching.Optimum

/-!
# What one evaluation does

With a right answer to its relaxation the evaluation of a node keeps what the search knows true,
and every admissible point of the node is covered by the incumbent afterwards, belongs to a child,
or is lost because the node is dropped as a leaf (`step_evaluate`).  On the last level binary
variables are integral, so a program without other integer variables has no such leaves
(`verdict_evaluate_ne_leaf`).
-/

namespace LinProg

open Denoting Search

variable {α : Type} [Integral α] [Denoting α] {n : Nat}

/-! ## Visits -/

namespace Visit

def Holds (visit : Visit α n) (z : Fin n → Rat) : Prop :=
  ∃ lp, visit.problem = some lp ∧ visit.node.Contains lp z

/-- The relaxation was answered correctly, and nothing is rounded when a variable is fixed. -/
structure Exact (relax : LinearProgram α n → Solution α × List Message) (visit : Visit α n) :
    Prop where
  answers : ∀ lp, visit.problem = some lp → (relax lp).1.Answers lp
  fixes : ∀ lp, visit.problem = some lp → ∀ v : Fin n, visit.verdict = .branchedBinary v.val →
    lp.FixesExactly v 0 ∧ lp.FixesExactly v 1

theorem exact_rat {relax : LinearProgram Rat n → Solution Rat × List Message} {visit : Visit Rat n}
    (h : ∀ lp, visit.problem = some lp → (relax lp).1.Answers lp) : visit.Exact relax :=
  ⟨h, fun lp _ v _ => ⟨lp.fixesExactly_rat v 0, lp.fixesExactly_rat v 1⟩⟩

end Visit

namespace MixedIntegerProgram

/-! ## What the search knows -/

/-- A search over the program came to the node, which still has its problem. -/
def Pending (p : MixedIntegerProgram α n) (node : Node α n) : Prop :=
  ∃ lp, node.problem = some lp ∧ p.Reached node lp

/-- The incumbent has the value of an admissible point, and no relaxation was unbounded. -/
structure Sane (p : MixedIntegerProgram α n) (state : SearchState α) : Prop where
  bounded : state.unbounded = false
  incumbent : ∀ best, state.incumbent = some best → best.state = .solved ∧
    ∃ a, best.objectiveValue = some a ∧ IsNumber a ∧
      ∃ z, p.Admissible z ∧ toRat a = p.relaxation.read.value z

def AsGoodAs (p : MixedIntegerProgram α n) (solution : Solution α) (z : Fin n → Rat) : Prop :=
  ∃ a, solution.objectiveValue = some a ∧
    p.relaxation.objective.NoBetter (p.relaxation.read.value z) (toRat a)

def Covers (p : MixedIntegerProgram α n) (z : Fin n → Rat) (state : SearchState α) : Prop :=
  ∃ best, state.incumbent = some best ∧ p.AsGoodAs best z

variable {p : MixedIntegerProgram α n}
  {relax : LinearProgram α n → Solution α × List Message}

theorem improves_iff {objective : Objective} {solution best : Solution α} {a b : α}
    (ha : solution.objectiveValue = some a) (hb : best.objectiveValue = some b)
    (hanumber : IsNumber a) (hbnumber : IsNumber b) :
    solution.improves objective best = true ↔ ¬objective.NoBetter (toRat a) (toRat b) := by
  rw [← Objective.improves_iff hanumber hbnumber, Solution.improves, ha, hb]

theorem covers_of_dominated {state : SearchState α} {solution best : Solution α} {z : Fin n → Rat}
    (hsane : p.Sane state) (hbest : state.incumbent = some best)
    (hworse : solution.improves p.relaxation.objective best = false)
    (hsolution : ∃ a, solution.objectiveValue = some a ∧ IsNumber a ∧
      p.relaxation.objective.NoBetter (p.relaxation.read.value z) (toRat a)) :
    p.Covers z state := by
  obtain ⟨a, ha, hnumber, hz⟩ := hsolution
  obtain ⟨-, b, hb, hbnumber, -⟩ := hsane.incumbent best hbest
  have hle : p.relaxation.objective.NoBetter (toRat a) (toRat b) := by
    by_contra h
    rw [(improves_iff ha hb hnumber hbnumber).2 h] at hworse
    cases hworse
  exact ⟨best, hbest, b, hb, hz.trans hle⟩

theorem covers_of_beats {state : SearchState α} {solution : Solution α} {a : α} {z : Fin n → Rat}
    (hsane : p.Sane state) (hbeats : (p.search relax).Beats solution state)
    (ha : solution.objectiveValue = some a) (hnumber : IsNumber a) (h : p.Covers z state) :
    p.AsGoodAs solution z := by
  obtain ⟨best, hbest, b, hb, hz⟩ := h
  obtain ⟨-, b', hb', hbnumber, -⟩ := hsane.incumbent best hbest
  obtain rfl := Option.some.inj (hb.symm.trans hb')
  have hbetter : ¬p.relaxation.objective.NoBetter (toRat a) (toRat b) :=
    (improves_iff ha hb hnumber hbnumber).1 (hbeats best hbest)
  exact ⟨a, ha, hz.trans (.of_improves (by simpa [Objective.NoBetter] using hbetter))⟩

/-! ## One evaluation -/

/-- What an evaluation leaves of a pending node and of what the search knew. -/
structure Step (p : MixedIntegerProgram α n) (node : Node α n) (state : SearchState α)
    (visit : Visit α n) : Prop where
  children : ∀ child ∈ visit.children, p.Pending child
  sane : p.Sane visit.state
  covers : ∀ z, p.Covers z state → p.Covers z visit.state
  holds : ∀ z, p.Admissible z → node.Holds z → p.Covers z visit.state ∨
    (visit.verdict = .leaf ∧ visit.Holds z) ∨ ∃ child ∈ visit.children, child.Holds z

theorem pending_binaryChildren {node : Node α n} {lp : LinearProgram α n} {v : Fin n}
    (h : p.Reached node lp) (hv : p.branchingOrder[node.level]? = some v)
    (hexact : lp.FixesExactly v 0 ∧ lp.FixesExactly v 1) :
    ∀ child ∈ binaryChildren node lp v, p.Pending child := by
  intro child hchild
  obtain ⟨side, rfl⟩ := mem_binaryChildren.1 hchild
  cases side with
  | left => exact ⟨_, rfl, h.binaryChild hv (.inl rfl) hexact.1 .left⟩
  | right => exact ⟨_, rfl, h.binaryChild hv (.inr rfl) hexact.2 .right⟩

theorem pending_integerChildren {node : Node α n} {lp : LinearProgram α n} {v : Fin n} {value : α}
    (h : p.Reached node lp) (hv : p.branchingOrder[node.level]? = some v)
    (hlevel : p.binaries.members.length ≤ node.level) :
    ∀ child ∈ integerChildren node lp v value, p.Pending child := by
  intro child hchild
  obtain ⟨side, rfl⟩ := mem_integerChildren.1 hchild
  exact ⟨_, rfl, h.integerChild hv hlevel ..⟩

/-- Branching gives pending nodes that lose no admissible point. -/
theorem branch_spec (relax : LinearProgram α n → Solution α × List Message) {node : Node α n}
    {lp : LinearProgram α n} {solution : Solution α} {v : Fin n} (h : p.Reached node lp)
    (hpoint : solution.IsPoint lp) (hv : p.branchingOrder[node.level]? = some v)
    (hexact : ((p.search relax).branch node lp (withFixings node solution).x v.val).1 =
      .branchedBinary v.val → lp.FixesExactly v 0 ∧ lp.FixesExactly v 1) :
    ∃ children,
      ((p.search relax).branch node lp (withFixings node solution).x v.val).2 = some children ∧
        (∀ child ∈ children, p.Pending child) ∧
        ∀ z, p.Admissible z → node.Contains lp z → ∃ child ∈ children, child.Holds z := by
  unfold branch at hexact ⊢
  by_cases hlevel : node.level < (p.search relax).nrBinary
  · rw [if_pos hlevel] at hexact ⊢
    rw [dif_pos v.isLt]
    have hbinary := mem_binaries_of_level hv hlevel
    have hfixes := hexact rfl
    refine ⟨_, rfl, pending_binaryChildren h hv hfixes, fun z hz hin => ?_⟩
    exact holds_binaryChildren hin (hz.binary v hbinary) hfixes.1 hfixes.2
  · rw [if_neg hlevel]
    have hinteger := mem_integers_of_level hv (Nat.le_of_not_lt hlevel)
    have hlength : v.val < (withFixings node solution).x.length := by
      rw [length_withFixings, hpoint.length_eq]
      exact v.isLt
    have hx := List.getElem?_eq_getElem hlength
    rw [hx]
    dsimp only
    rw [dif_pos v.isLt]
    refine ⟨_, rfl, pending_integerChildren h hv (Nat.le_of_not_lt hlevel), fun z hz hin => ?_⟩
    exact holds_integerChildren hin (hz.integral v hinteger) (h.isNumber_withFixings hpoint hx)

theorem Sane.accept {node : Node α n} {lp : LinearProgram α n} {solution : Solution α}
    {state : SearchState α} (hsane : p.Sane state) (hreached : p.Reached node lp)
    (hopt : solution.IsOptimum lp) (hsolved : solution.state = .solved)
    (hfree : ∀ v ∈ p.binaries.members, v ∉ p.relaxation.free.members)
    (hx : isIntegralOn? (withFixings node solution).x (p.search relax).order = some true) :
    p.Sane { state with incumbent := some (withFixings node solution) } := by
  obtain ⟨a, ha, hnumber, hvalue⟩ := hreached.value_point hopt.isPoint
  refine ⟨hsane.bounded, fun best hbest => ?_⟩
  cases hbest
  exact ⟨hsolved, a, ha, hnumber, _, hreached.admissible_point hopt.isPoint hx hfree, hvalue⟩

theorem Pending.judged (relax : LinearProgram α n → Solution α × List Message) (v : Verbosity)
    {node : Node α n} (hnode : p.Pending node) (state : SearchState α) {visit : Visit α n}
    (hvisit : (p.search relax).evaluate v node state = visit) :
    ∃ lp, visit.problem = some lp ∧ p.Reached visit.node lp ∧
      (∀ z, node.Holds z → visit.node.Contains lp z) ∧
      Judged (p.search relax) visit.node lp (withFixings visit.node (relax lp).1)
        { state with iterations := state.iterations + 1 }
        (visit.verdict, visit.children?, visit.state) := by
  subst hvisit
  obtain ⟨lp, hlp, hreached⟩ := hnode
  rw [node_evaluate, problem_evaluate]
  refine ⟨lp, hlp, hreached.takeProblem, fun z hz => ?_, judged_evaluate _ v hlp state⟩
  obtain ⟨lp', hlp', hz⟩ := hz
  obtain rfl := Option.some.inj (hlp.symm.trans hlp')
  exact ⟨hz.agrees, hz.feasible⟩

/-- What one evaluation does. -/
theorem step_evaluate (hfree : ∀ v ∈ p.binaries.members, v ∉ p.relaxation.free.members)
    (v : Verbosity) {node : Node α n} {state : SearchState α} (hnode : p.Pending node)
    (hsane : p.Sane state) (hexact : ((p.search relax).evaluate v node state).Exact relax) :
    p.Step node state ((p.search relax).evaluate v node state) := by
  generalize hvisit : (p.search relax).evaluate v node state = visit at hexact ⊢
  obtain ⟨lp, hproblem, hreached, hcontains, hjudged⟩ := hnode.judged relax v state hvisit
  have hanswers := hexact.answers lp hproblem
  have hfixes := hexact.fixes lp hproblem
  have hknown : p.Sane { state with iterations := state.iterations + 1 } :=
    ⟨hsane.bounded, hsane.incumbent⟩
  clear hexact hvisit
  obtain ⟨taken, _, verdict, children?, after, _⟩ := visit
  dsimp only at hproblem hreached hcontains hfixes hjudged
  cases hjudged with
  | misplaced hplaces =>
    -- a solved relaxation has a place for every variable
    have hnone := hanswers.noSolution <| hanswers.state.resolve_left fun hsolved =>
      hreached.not_misplaced (hanswers.solved hsolved).length_eq hplaces
    exact ⟨nofun, hknown, fun z hz => hz, fun z _ hz => absurd (hcontains z hz).feasible (hnone z)⟩
  | unbounded hstate =>
    rcases hanswers.state with h | h <;> cases h.symm.trans hstate
  | unsolved hsolved hbounded =>
    have hnone := hanswers.noSolution (hanswers.state.resolve_left hsolved)
    exact ⟨nofun, hknown, fun z hz => hz, fun z _ hz => absurd (hcontains z hz).feasible (hnone z)⟩
  | dominated hsolved hbest hworse =>
    have hopt := hanswers.solved hsolved
    refine ⟨nofun, hknown, fun z hz => hz, fun z _ hz => .inl ?_⟩
    exact covers_of_dominated hknown hbest hworse
      (hreached.noBetter_of_contains hopt (hcontains z hz))
  | unreadable hsolved _ hx =>
    exact absurd hx (isIntegralOn?_order_ne_none taken (hanswers.solved hsolved).length_eq)
  | accepted hsolved hbeats hx =>
    have hopt := hanswers.solved hsolved
    obtain ⟨a, ha, hnumber, -⟩ := hreached.value_point hopt.isPoint
    refine ⟨nofun, hknown.accept hreached hopt hsolved hfree hx, fun z hz => ?_,
      fun z _ hz => .inl ?_⟩
    · exact ⟨_, rfl, covers_of_beats hknown hbeats ha hnumber hz⟩
    · obtain ⟨b, hb, -, hz⟩ := hreached.noBetter_of_contains hopt (hcontains z hz)
      exact ⟨_, rfl, b, hb, hz⟩
  | leaf hsolved _ hx hlast =>
    exact ⟨nofun, hknown, fun z hz => hz,
      fun z _ hz => .inr (.inl ⟨rfl, lp, hproblem, hcontains z hz⟩)⟩
  | branched hsolved _ hx hindex _ =>
    obtain ⟨w, hw, rfl⟩ := Option.map_eq_some_iff.1 ((List.getElem?_map ..).symm.trans hindex)
    obtain ⟨children, hchildren, hpending, hcover⟩ :=
      branch_spec relax hreached (hanswers.solved hsolved).isPoint hw (hfixes w)
    refine ⟨?_, hknown, fun z hz => hz, fun z hz hin => .inr (.inr ?_)⟩
    · unfold Visit.children
      rw [hchildren]
      exact hpending
    · unfold Visit.children
      rw [hchildren]
      exact hcover z hz (hcontains z hin)

/-- Binary variables are integral on the last level. -/
theorem verdict_evaluate_ne_leaf (hbinary : ∀ v ∈ p.integers.members, v ∈ p.binaries.members)
    (v : Verbosity) {node : Node α n} {state : SearchState α} (hnode : p.Pending node)
    (hsane : p.Sane state) (hexact : ((p.search relax).evaluate v node state).Exact relax) :
    ((p.search relax).evaluate v node state).verdict ≠ .leaf := by
  intro hleaf
  generalize hvisit : (p.search relax).evaluate v node state = visit at hexact hleaf
  obtain ⟨lp, hproblem, hreached, -, hjudged⟩ := hnode.judged relax v state hvisit
  have hanswers := hexact.answers lp hproblem
  clear hexact hvisit
  obtain ⟨_, _, verdict, children?, after, _⟩ := visit
  dsimp only at hreached hleaf hjudged
  cases hjudged with
  | misplaced | unbounded | unsolved | dominated | unreadable | accepted => cases hleaf
  | branched => exact verdict_branch_ne_leaf _ _ _ _ _ hleaf
  | leaf hsolved _ hx hlast =>
    rw [hreached.isIntegralOn?_of_binary (hanswers.solved hsolved).length_eq hbinary
      (hlast.resolve_right (by simp [hsane.bounded]))] at hx
    cases hx

end MixedIntegerProgram

end LinProg
