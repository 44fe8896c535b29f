import LinProg.Number.Instances
import LinProg.Proofs.Branching.AnyOrder
import Mathlib.Data.Multiset.Bind

/-!
# The accounts of a search

Nodes are pushed once, at different places of the tree (`Accounts.distinct`), and as long as no
relaxation is unbounded each of them waits or was visited (`Accounts.eq_pushed`).  What is pending
weighs as much as the tree that may still grow, so what was visited fits into a full binary tree.
Every advance of a search in any order keeps these accounts; an exploration ends with nothing
pending (`explore_ends`).
-/

namespace LinProg

open LawfulFrontier

variable {α : Type} {n : Nat}

def Visit.popped (visit : Visit α n) : Node α n := { visit.node with problem := visit.problem }

namespace Search

/-- Every node that was pushed: the root, and the children of the nodes that were visited. -/
def pushed (lp : LinearProgram α n) (visits : Multiset (Visit α n)) : Multiset (Node α n) :=
  .root lp ::ₘ visits.bind fun visit => visit.children

def popped (visits : Multiset (Visit α n)) : Multiset (Node α n) := visits.map Visit.popped

theorem pushed_cons (lp : LinearProgram α n) (visit : Visit α n) (visits : List (Visit α n)) :
    pushed lp ((visit :: visits : List (Visit α n)) : Multiset (Visit α n)) =
      visit.children + pushed lp visits := by
  rw [pushed, ← Multiset.cons_coe, Multiset.cons_bind, pushed, Multiset.add_cons]

theorem popped_evaluate [Integral α] (s : Search α n) (v : Verbosity) (node : Node α n)
    (state : SearchState α) : (s.evaluate v node state).popped = node := by
  rw [Visit.popped, problem_evaluate, node_evaluate]
  rfl

/-! ## What every advance keeps -/

structure Accounts (s : Search α n) (lp : LinearProgram α n) (p : Progress α n) : Prop where
  iterations : p.state.iterations = p.visits.length
  unbounded : p.state.unbounded = true ↔ ∃ visit ∈ p.visits, visit.verdict = .unbounded
  level_le : ∀ node ∈ pushed lp p.visits, node.level ≤ s.order.length
  weight_le :
    totalWeight s.order.length p.pending + p.visits.length ≤ weight s.order.length (.root lp)
  /-- An unbounded search may have discarded nodes. -/
  le_pushed : p.pending + popped p.visits ≤ pushed lp p.visits
  eq_pushed : p.state.unbounded = false → p.pending + popped p.visits = pushed lp p.visits
  sides : ∀ visit ∈ p.visits, ∀ child ∈ visit.children,
    ∃ side, child.sides = visit.popped.sides ++ [side]
  distinct : ((pushed lp p.visits).map Node.sides).Nodup

namespace Accounts

variable {s : Search α n} {lp : LinearProgram α n} {v : Verbosity} {node : Node α n}
  {rest : Multiset (Node α n)} {state : SearchState α} {visits : List (Visit α n)}

theorem start (s : Search α n) (lp : LinearProgram α n) : s.Accounts lp ⟨{.root lp}, {}, []⟩ where
  iterations := rfl
  unbounded := ⟨nofun, fun ⟨_, hvisit, _⟩ => absurd hvisit List.not_mem_nil⟩
  level_le node hnode := by
    rw [Multiset.mem_singleton.1 hnode]
    exact Nat.zero_le _
  weight_le := by
    rw [List.length_nil, Nat.add_zero]
    exact (Multiset.sum_singleton _).le
  le_pushed := le_refl _
  eq_pushed _ := rfl
  sides _ hvisit := absurd hvisit List.not_mem_nil
  distinct := Multiset.nodup_singleton _

theorem discard (h : s.Accounts lp ⟨node ::ₘ rest, state, visits⟩)
    (hunbounded : state.unbounded = true) : s.Accounts lp ⟨rest, state, visits⟩ where
  iterations := h.iterations
  unbounded := h.unbounded
  level_le := h.level_le
  weight_le := by
    have hweight := h.weight_le
    rw [totalWeight_cons] at hweight
    exact (Nat.add_le_add_right (Nat.le_add_left _ _) _).trans hweight
  le_pushed := (add_le_add_left (Multiset.le_cons_self rest node) _).trans h.le_pushed
  eq_pushed hbounded := by
    rw [hunbounded] at hbounded
    cases hbounded
  sides := h.sides
  distinct := h.distinct

theorem eq_pushed_of_bounded {p : Progress α n} (h : s.Accounts lp p)
    (hbounded : ∀ visit ∈ p.visits, visit.verdict ≠ .unbounded) :
    p.pending + popped p.visits = pushed lp p.visits := by
  refine h.eq_pushed ?_
  by_contra hstopped
  obtain ⟨visit, hvisit, hverdict⟩ := h.unbounded.1 (by simpa using hstopped)
  exact hbounded visit hvisit hverdict

theorem sides_ne (h : s.Accounts lp ⟨node ::ₘ rest, state, visits⟩) :
    ∀ visit ∈ visits, visit.popped.sides ≠ node.sides := by
  intro visit hvisit hsides
  have hnodup := Multiset.nodup_of_le (Multiset.map_le_map h.le_pushed) h.distinct
  rw [Multiset.map_add, Multiset.map_cons, Multiset.cons_add, Multiset.nodup_cons] at hnodup
  refine hnodup.1 (Multiset.mem_add.2 (.inr ?_))
  rw [← hsides]
  exact Multiset.mem_map_of_mem _ (Multiset.mem_map_of_mem _ hvisit)

theorem sides_not_mem (h : s.Accounts lp ⟨node ::ₘ rest, state, visits⟩) (side : Side) :
    node.sides ++ [side] ∉ (pushed lp visits).map Node.sides := by
  intro hmem
  obtain ⟨other, hother, hsides⟩ := Multiset.mem_map.1 hmem
  rcases Multiset.mem_cons.1 hother with rfl | hother
  · exact List.append_ne_nil_of_right_ne_nil _ (List.cons_ne_nil _ _) hsides.symm
  · obtain ⟨visit, hvisit, hchild⟩ := Multiset.mem_bind.1 hother
    obtain ⟨side', hside⟩ := h.sides visit hvisit other hchild
    exact h.sides_ne visit hvisit (List.append_inj_left' (hside.symm.trans hsides) rfl)

variable [Integral α]

/-- The books stay balanced when a node is replaced by its children. -/
theorem balance (s : Search α n) (v : Verbosity) (node : Node α n) (state : SearchState α)
    (rest : Multiset (Node α n)) (visits : List (Visit α n)) :
    ((s.evaluate v node state).children : Multiset (Node α n)) + rest +
        popped ((s.evaluate v node state :: visits : List (Visit α n)) : Multiset (Visit α n)) =
      ((s.evaluate v node state).children : Multiset (Node α n)) +
        (node ::ₘ rest + popped visits) := by
  rw [popped, ← Multiset.cons_coe, Multiset.map_cons, popped_evaluate, Multiset.add_cons,
    Multiset.cons_add, Multiset.add_cons, add_assoc, popped]

theorem distinct_visit (h : s.Accounts lp ⟨node ::ₘ rest, state, visits⟩) :
    ((pushed lp (s.evaluate v node state :: visits : List (Visit α n))).map Node.sides).Nodup := by
  rw [pushed_cons, Multiset.map_add, Multiset.map_coe]
  rcases sides_children s v node state with hnone | hsides
  · rw [hnone, List.map_nil, Multiset.coe_nil, zero_add]
    exact h.distinct
  · have hpair : [node.sides ++ [.left], node.sides ++ [Side.right]].Nodup := by
      simp
    rw [hsides]
    refine Multiset.nodup_add.2 ⟨hpair, h.distinct, Multiset.disjoint_left.2 fun hplace => ?_⟩
    rcases List.mem_pair.1 hplace with rfl | rfl
    · exact h.sides_not_mem .left
    · exact h.sides_not_mem .right

theorem visit (h : s.Accounts lp ⟨node ::ₘ rest, state, visits⟩) :
    s.Accounts lp ⟨(s.evaluate v node state).children + rest, (s.evaluate v node state).state,
      s.evaluate v node state :: visits⟩ where
  iterations := by
    rw [iterations_evaluate, h.iterations, List.length_cons]
  unbounded := by
    rw [unbounded_evaluate, h.unbounded, List.exists_mem_cons_iff, or_comm]
  level_le other hother := by
    rw [pushed_cons] at hother
    rcases Multiset.mem_add.1 hother with hchild | hother
    · exact level_children s v (Multiset.mem_coe.1 hchild)
    · exact h.level_le other hother
  weight_le := by
    have hnode : node.level ≤ s.order.length :=
      h.level_le node (Multiset.mem_of_le h.le_pushed
        (Multiset.mem_add.2 (.inl (Multiset.mem_cons_self _ _))))
    have hless := totalWeight_children s v state hnode
    have hweight : totalWeight s.order.length (node ::ₘ rest) + visits.length ≤
      weight s.order.length (.root lp) := h.weight_le
    rw [totalWeight_cons] at hweight
    rw [totalWeight_add, List.length_cons]
    omega
  le_pushed := by
    rw [balance, pushed_cons]
    exact add_le_add_right h.le_pushed _
  eq_pushed hbounded := by
    have hbefore : state.unbounded = false := by
      by_contra hunbounded
      rw [(unbounded_evaluate s v node state).2 (.inl (by simpa using hunbounded))] at hbounded
      cases hbounded
    rw [balance, pushed_cons]
    exact congrArg _ (h.eq_pushed hbefore)
  sides := by
    refine List.forall_mem_cons.2 ⟨fun child hchild => ?_, h.sides⟩
    rw [popped_evaluate]
    exact sides_of_child hchild
  distinct := h.distinct_visit

end Accounts

variable [Integral α] {s : Search α n} {lp : LinearProgram α n} {v : Verbosity}

theorem Proceeds.accounts {reached : Progress α n}
    (hrun : s.Proceeds v ⟨{.root lp}, {}, []⟩ reached) : s.Accounts lp reached := by
  induction hrun with
  | refl => exact .start s lp
  | tail _ hadvance ih =>
    cases hadvance with
    | visit => exact ih.visit
    | discard _ _ _ _ hunbounded => exact ih.discard hunbounded

/-! ## At the end -/

/-- The exploration of a tree ends, whatever the relaxations return and in whatever order the
frontier gives nodes back: `explore` is the only run of the loop without fuel.  No node is pushed
below the last level, or at the place of another one.  All visits are counted, failed ones too, and
there are no more of them than nodes in a full binary tree.  No node is visited more often than it
was pushed, and all of them are visited unless a relaxation was unbounded. -/
theorem explore_ends (φ : Type) [Frontier φ (Node α n)] [LawfulFrontier φ (Node α n)]
    (s : Search α n) (v : Verbosity) (lp : LinearProgram α n) :
    ∃ visits last,
      (s.explore φ v (.root lp)).visits = visits ∧ (s.explore φ v (.root lp)).state = last ∧
      (∀ visits' last',
        Explores s v (Frontier.push Frontier.empty (.root lp) : φ) {} visits' last' ↔
          visits' = visits ∧ last' = last) ∧
      (∀ node ∈ pushed lp visits, node.level ≤ s.order.length) ∧
      visits.length ≤ 2 ^ (s.order.length + 1) - 1 ∧
      last.iterations = visits.length ∧
      ((pushed lp visits).map Node.sides).Nodup ∧
      popped visits ≤ pushed lp visits ∧
      ((∀ visit ∈ visits, visit.verdict ≠ .unbounded) → popped visits = pushed lp visits) := by
  have hrun := explores_explore (φ := φ) s v (.root lp) rfl
  have h : s.Accounts lp ⟨0, (s.explore φ v (.root lp)).state,
      (s.explore φ v (.root lp)).visits.reverse⟩ := (Completes.alone φ).proceeds.accounts
  refine ⟨_, _, rfl, rfl, fun visits' last' => ⟨hrun.unique, ?_⟩, ?_⟩
  · rintro ⟨rfl, rfl⟩
    exact hrun
  have hall := h.eq_pushed_of_bounded
  obtain ⟨hiterations, -, hlevel, hweight, hle, -, -, hdistinct⟩ := h
  simp only [Multiset.coe_reverse, List.length_reverse, List.mem_reverse, zero_add]
    at hiterations hlevel hweight hle hall hdistinct
  have hlength : (s.explore φ v (.root lp)).visits.length ≤ 2 ^ (s.order.length + 1) - 1 :=
    (Nat.le_add_left _ _).trans hweight
  exact ⟨hlevel, hlength, hiterations, hdistinct, hle, hall⟩

/-- The variable is one half until it is eliminated; then the second variable of the order is looked
for, which doesn't exist. -/
def failingSearch : Search Rat 1 where
  objective := .maximize
  order := [0, 5]
  nrBinary := 1
  relax _ := (⟨.solved, .maximize, some 0, [1 / 2], 0, [], []⟩, [])

def failingRoot : LinearProgram Rat 1 where
  objective := .maximize
  constant := 0
  cost := #v[1]
  constraints := []
  free := .empty

def failingRun : Exploration (DepthFirst (Node Rat 1)) Rat 1 :=
  failingSearch.explore _ none (.root failingRoot)

/-- Both children fail, and are visited and counted like the root. -/
theorem failingRun_ends :
    failingRun.visits.map Visit.failed = [false, true, true] ∧ failingRun.state.iterations = 3 ∧
      popped failingRun.visits = pushed failingRoot failingRun.visits := by
  obtain ⟨visits, last, hvisits, hlast, -, -, -, hiterations, -, -, hall⟩ :=
    explore_ends (DepthFirst _) failingSearch none failingRoot
  change failingRun.visits = visits at hvisits
  change failingRun.state = last at hlast
  have hfailed : failingRun.visits.map Visit.failed = [false, true, true] := by decide +kernel
  have hbounded : ∀ visit ∈ failingRun.visits, visit.verdict ≠ .unbounded := by decide +kernel
  subst hvisits
  refine ⟨hfailed, ?_, hall hbounded⟩
  rw [hlast, hiterations, ← List.length_map Visit.failed, hfailed]
  rfl

end Search

end LinProg
