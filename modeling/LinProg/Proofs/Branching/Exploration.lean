import LinProg.Proofs.Branching.Frontier
import LinProg.Proofs.Branching.Progress
import Mathlib.Algebra.BigOperators.Group.Multiset.Basic

/-!
# Explorations that end

`Explores` is a run of the search without fuel.  The fuel of `explore` always suffices for such a
run (`explores_explore`): a pending node weighs as much as the tree that may still grow below it,
and a visit takes one off the weight of all pending nodes.

The frontier of a run only picks the order in which the search proceeds (`Explores.proceeds`), so a
run preserves what every order does.
-/

namespace LinProg.Search

open LawfulFrontier

variable {α : Type} {n : Nat}

/-! ## Weights -/

/-- The number of nodes of a full binary tree from a node down to the last level. -/
def weight (depth : Nat) (node : Node α n) : Nat := 2 ^ (depth + 1 - node.level) - 1

def totalWeight (depth : Nat) (nodes : Multiset (Node α n)) : Nat :=
  (nodes.map (weight depth)).sum

theorem one_le_weight {depth : Nat} {node : Node α n} (h : node.level ≤ depth) :
    1 ≤ weight depth node := by
  have : 2 ^ 1 ≤ 2 ^ (depth + 1 - node.level) := Nat.pow_le_pow_right (by omega) (by omega)
  unfold weight
  omega

theorem totalWeight_cons (depth : Nat) (node : Node α n) (nodes : Multiset (Node α n)) :
    totalWeight depth (node ::ₘ nodes) = weight depth node + totalWeight depth nodes := by
  rw [totalWeight, Multiset.map_cons, Multiset.sum_cons]
  rfl

theorem totalWeight_add (depth : Nat) (a b : Multiset (Node α n)) :
    totalWeight depth (a + b) = totalWeight depth a + totalWeight depth b := by
  rw [totalWeight, Multiset.map_add, Multiset.sum_add]
  rfl

/-! ## Runs -/

variable [Integral α] {φ : Type} [Frontier φ (Node α n)]

/-- A run from pending nodes and a state: its visits and the last state. -/
inductive Explores (s : Search α n) (v : Verbosity) :
    φ → SearchState α → List (Visit α n) → SearchState α → Prop
  | drained {pending : φ} {state : SearchState α} (hpop : Frontier.pop? pending = none) :
      Explores s v pending state [] state
  | stopped {pending : φ} {state : SearchState α} (hunbounded : state.unbounded = true) :
      Explores s v pending state [] state
  | visit {pending rest : φ} {node : Node α n} {state last : SearchState α}
      {visits : List (Visit α n)} (hbounded : state.unbounded = false)
      (hpop : Frontier.pop? pending = some (node, rest))
      (hrest : Explores s v (Frontier.pushAll rest (s.evaluate v node state).children)
        (s.evaluate v node state).state visits last) :
      Explores s v pending state (s.evaluate v node state :: visits) last

/-- There is one run only. -/
theorem Explores.unique {s : Search α n} {v : Verbosity} {pending : φ}
    {state last last' : SearchState α} {visits visits' : List (Visit α n)}
    (h : Explores s v pending state visits last) (h' : Explores s v pending state visits' last') :
    visits' = visits ∧ last' = last := by
  induction h generalizing visits' last' with
  | drained hpop =>
    cases h' with
    | drained | stopped => exact ⟨rfl, rfl⟩
    | visit _ hpop' => cases hpop.symm.trans hpop'
  | stopped hunbounded =>
    cases h' with
    | drained | stopped => exact ⟨rfl, rfl⟩
    | visit hbounded => cases hunbounded.symm.trans hbounded
  | visit hbounded hpop _ ih =>
    cases h' with
    | drained hpop' => cases hpop.symm.trans hpop'
    | stopped hunbounded => cases hunbounded.symm.trans hbounded
    | visit _ hpop' hrest =>
      obtain ⟨rfl, rfl⟩ := Prod.mk.inj (Option.some.inj (hpop.symm.trans hpop'))
      obtain ⟨rfl, rfl⟩ := ih hrest
      exact ⟨rfl, rfl⟩

/-! ## Enough fuel -/

/-- A visited node weighs more than its children. -/
theorem totalWeight_children (s : Search α n) (v : Verbosity) {node : Node α n}
    (state : SearchState α) (h : node.level ≤ s.order.length) :
    totalWeight s.order.length ((s.evaluate v node state).children : Multiset (Node α n)) <
      weight s.order.length node := by
  have hweight := one_le_weight h
  rcases splits_evaluate s v node state with hnone | ⟨hlevel, hnone | ⟨a, b, hchildren, ha, hb⟩⟩
  · rw [hnone]
    exact hweight
  · rw [hnone]
    exact hweight
  · rw [hchildren, ← Multiset.cons_coe, ← Multiset.cons_coe, totalWeight_cons, totalWeight_cons]
    have hzero : totalWeight s.order.length (([] : List (Node α n)) : Multiset (Node α n)) = 0 :=
      rfl
    have hpow : 2 ^ (s.order.length + 1 - node.level) =
        2 * 2 ^ (s.order.length + 1 - (node.level + 1)) := by
      rw [← Nat.pow_succ']
      congr 1
      omega
    have hpos : 0 < 2 ^ (s.order.length + 1 - (node.level + 1)) := Nat.two_pow_pos _
    unfold weight
    rw [hzero, ha, hb, hpow]
    omega

theorem level_children (s : Search α n) (v : Verbosity) {node child : Node α n}
    {state : SearchState α} (h : child ∈ (s.evaluate v node state).children) :
    child.level ≤ s.order.length := by
  obtain ⟨hlevel, hchild⟩ := level_of_child h
  omega

variable [LawfulFrontier φ (Node α n)]

/-- Fuel for the weight of all pending nodes suffices. -/
theorem explores_exploreFrom (s : Search α n) (v : Verbosity) :
    ∀ (fuel : Nat) (pending : φ) (state : SearchState α),
      (∀ node ∈ contents pending, node.level ≤ s.order.length) →
      totalWeight s.order.length (contents pending) ≤ fuel →
      Explores s v pending state (s.exploreFrom v fuel pending state).visits
        (s.exploreFrom v fuel pending state).state := by
  intro fuel
  induction fuel with
  | zero =>
    intro pending state hlevel hfuel
    cases hpop : Frontier.pop? pending with
    | none => exact .drained hpop
    | some popped =>
      obtain ⟨node, rest⟩ := popped
      have hcontents := contents_of_pop_some hpop
      have hweight := one_le_weight (hlevel node (hcontents ▸ Multiset.mem_cons_self _ _))
      rw [hcontents, totalWeight_cons] at hfuel
      omega
  | succ fuel ih =>
    intro pending state hlevel hfuel
    rw [exploreFrom]
    split
    next hunbounded => exact .stopped hunbounded
    next hbounded =>
      split
      next hpop => exact .drained hpop
      next node rest hpop =>
        have hcontents := contents_of_pop_some hpop
        have hnode : node.level ≤ s.order.length :=
          hlevel node (hcontents ▸ Multiset.mem_cons_self _ _)
        refine .visit (by simpa using hbounded) hpop (ih _ _ ?_ ?_)
        · exact forall_contents_step hpop hlevel fun child hchild => level_children s v hchild
        · have hless := totalWeight_children s v state hnode
          rw [hcontents, totalWeight_cons] at hfuel
          rw [contents_pushAll, totalWeight_add]
          omega

theorem explores_explore (s : Search α n) (v : Verbosity) (root : Node α n)
    (hroot : root.level = 0) :
    Explores s v (Frontier.push Frontier.empty root : φ) {} (s.explore φ v root).visits
      (s.explore φ v root).state := by
  have hcontents : contents (Frontier.push Frontier.empty root : φ) = root ::ₘ 0 := by
    rw [contents_push, contents_empty]
  refine explores_exploreFrom s v _ _ _ ?_ ?_
  · intro node hnode
    rw [hcontents, Multiset.mem_cons] at hnode
    rcases hnode with rfl | hnode
    · omega
    · exact absurd hnode (Multiset.notMem_zero node)
  · rw [hcontents, totalWeight_cons]
    have hzero : totalWeight s.order.length (0 : Multiset (Node α n)) = 0 := rfl
    have hbudget : s.nodeBudget = 2 ^ (s.order.length + 1) := rfl
    unfold weight
    rw [hzero, hroot, hbudget, Nat.sub_zero]
    omega

/-! ## What a run preserves -/

namespace Explores

variable {s : Search α n} {v : Verbosity} {pending : φ} {state last : SearchState α}
  {visits : List (Visit α n)}

theorem proceeds (hrun : Explores s v pending state visits last) (before : List (Visit α n)) :
    s.Proceeds v ⟨contents pending, state, before⟩ ⟨0, last, visits.reverse ++ before⟩ := by
  induction hrun generalizing before with
  | drained hpop =>
    rw [contents_of_pop_none hpop]
    exact .refl
  | stopped hunbounded => exact .discard_all hunbounded _ _
  | @visit pending rest node state last visits _ hpop _ ih =>
    have hnext := ih (s.evaluate v node state :: before)
    rw [contents_pushAll] at hnext
    rw [contents_of_pop_some hpop, List.reverse_cons, List.append_assoc]
    exact .head (.visit node (contents rest) state before) hnext

/-- What every evaluation preserves holds at the end, and held at every visit. -/
theorem preserves {Good : Node α n → Prop} {Sane : SearchState α → Prop} {Fine : Visit α n → Prop}
    (hstep : ∀ node state, Good node → Sane state → Fine (s.evaluate v node state) →
      (∀ child ∈ (s.evaluate v node state).children, Good child) ∧
        Sane (s.evaluate v node state).state)
    (hrun : Explores s v pending state visits last)
    (hpending : ∀ node ∈ contents pending, Good node) (hstate : Sane state)
    (hfine : ∀ visit ∈ visits, Fine visit) :
    Sane last ∧ ∀ visit ∈ visits,
      ∃ node state, Good node ∧ Sane state ∧ visit = s.evaluate v node state := by
  obtain ⟨hlast, -, hvisits⟩ :=
    (hrun.proceeds []).preserves hstep hpending hstate (by simpa using hfine)
  exact ⟨hlast, fun visit hvisit => hvisits visit (by simpa using hvisit)⟩

/-- What is in a pending node is covered at the end, or it was in a node where it got lost. -/
theorem covers {Good : Node α n → Prop} {Sane : SearchState α → Prop} {Fine : Visit α n → Prop}
    (Within : Node α n → Prop) {Covered : SearchState α → Prop} {Lost : Visit α n → Prop}
    (hstep : ∀ node state, Good node → Sane state → Fine (s.evaluate v node state) →
      (∀ child ∈ (s.evaluate v node state).children, Good child) ∧
        Sane (s.evaluate v node state).state)
    (hkeep : ∀ node state, Good node → Sane state → Fine (s.evaluate v node state) →
      Covered state → Covered (s.evaluate v node state).state)
    (hsplit : ∀ node state, Good node → Sane state → Fine (s.evaluate v node state) →
      Within node → Covered (s.evaluate v node state).state ∨ Lost (s.evaluate v node state) ∨
        ∃ child ∈ (s.evaluate v node state).children, Within child)
    (hsane : ∀ state, Sane state → state.unbounded = false)
    (hrun : Explores s v pending state visits last)
    (hpending : ∀ node ∈ contents pending, Good node) (hstate : Sane state)
    (hfine : ∀ visit ∈ visits, Fine visit)
    (hwithin : Covered state ∨ ∃ node ∈ contents pending, Within node) :
    Covered last ∨ ∃ visit ∈ visits, Lost visit := by
  rcases (hrun.proceeds []).covers Within hstep hkeep hsplit hsane hpending hstate
      (by simpa using hfine) hwithin with hcovered | ⟨visit, hvisit, hlost⟩ | ⟨node, hnode, -⟩
  · exact .inl hcovered
  · exact .inr ⟨visit, by simpa using hvisit, hlost⟩
  · exact absurd hnode (Multiset.notMem_zero node)

end Explores

end LinProg.Search
