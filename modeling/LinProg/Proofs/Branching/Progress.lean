import LinProg.Proofs.Branching.Evaluation
import Mathlib.Algebra.Order.Group.Multiset
import Mathlib.Logic.Relation

/-!
# Searches in any order

What any search does to its pending nodes, whoever picks them: one of them is visited and replaced
by its children (`Advances.visit`), or it is discarded because a relaxation was unbounded.  What a
whole run preserves follows from what one evaluation preserves: `preserves` for the nodes and the
state of the search, `covers` for what the search must not lose.
-/

namespace LinProg

structure Progress (α : Type) (n : Nat) where
  /-- The nodes that are not visited yet, in no order. -/
  pending : Multiset (Node α n)
  state : SearchState α
  /-- The visits that were made, the latest first. -/
  visits : List (Visit α n)

namespace Search

variable {α : Type} [Integral α] {n : Nat}

/-- One node less is pending. -/
inductive Advances (s : Search α n) (v : Verbosity) : Progress α n → Progress α n → Prop
  | visit (node : Node α n) (rest : Multiset (Node α n)) (state : SearchState α)
      (visits : List (Visit α n)) :
      Advances s v ⟨node ::ₘ rest, state, visits⟩
        ⟨(s.evaluate v node state).children + rest, (s.evaluate v node state).state,
          s.evaluate v node state :: visits⟩
  | discard (node : Node α n) (rest : Multiset (Node α n)) (state : SearchState α)
      (visits : List (Visit α n)) (hunbounded : state.unbounded = true) :
      Advances s v ⟨node ::ₘ rest, state, visits⟩ ⟨rest, state, visits⟩

/-- Any number of pending nodes, one after the other. -/
abbrev Proceeds (s : Search α n) (v : Verbosity) : Progress α n → Progress α n → Prop :=
  Relation.ReflTransGen (s.Advances v)

namespace Proceeds

variable {s : Search α n} {v : Verbosity}

/-- An unbounded search may discard all that is pending. -/
theorem discard_all {state : SearchState α} (hunbounded : state.unbounded = true)
    (pending : Multiset (Node α n)) (visits : List (Visit α n)) :
    s.Proceeds v ⟨pending, state, visits⟩ ⟨0, state, visits⟩ := by
  induction pending using Multiset.induction with
  | empty => exact .refl
  | cons node rest ih => exact .head (.discard node rest state visits hunbounded) ih

theorem accepted {pending : Multiset (Node α n)} {reached : Progress α n}
    (hrun : s.Proceeds v ⟨pending, {}, []⟩ reached) {best : Solution α}
    (hbest : reached.state.incumbent = some best) :
    ∃ visit ∈ reached.visits, s.Accepts visit best := by
  induction hrun with
  | refl => cases hbest
  | tail _ hadvance ih =>
    cases hadvance with
    | visit node rest before visits =>
      rcases incumbent_evaluate hbest with hbefore | haccepts
      · obtain ⟨visit, hvisit, haccepts⟩ := ih hbefore
        exact ⟨visit, List.mem_cons_of_mem _ hvisit, haccepts⟩
      · exact ⟨_, List.mem_cons_self, haccepts⟩
    | discard => exact ih hbest

variable {Good : Node α n → Prop} {Sane : SearchState α → Prop} {Fine : Visit α n → Prop}
  {pending : Multiset (Node α n)} {state : SearchState α} {reached : Progress α n}

theorem preserves
    (hstep : ∀ node state, Good node → Sane state → Fine (s.evaluate v node state) →
      (∀ child ∈ (s.evaluate v node state).children, Good child) ∧
        Sane (s.evaluate v node state).state)
    (hrun : s.Proceeds v ⟨pending, state, []⟩ reached)
    (hpending : ∀ node ∈ pending, Good node) (hstate : Sane state)
    (hfine : ∀ visit ∈ reached.visits, Fine visit) :
    Sane reached.state ∧ (∀ node ∈ reached.pending, Good node) ∧ ∀ visit ∈ reached.visits,
      ∃ node state, Good node ∧ Sane state ∧ visit = s.evaluate v node state := by
  induction hrun with
  | refl => exact ⟨hstate, hpending, fun _ hvisit => absurd hvisit List.not_mem_nil⟩
  | tail _ hadvance ih =>
    cases hadvance with
    | visit node rest before visits =>
      obtain ⟨hnow, hearlier⟩ := List.forall_mem_cons.1 hfine
      obtain ⟨hsane, hgood, hvisits⟩ := ih hearlier
      obtain ⟨hnode, hrest⟩ := Multiset.forall_mem_cons.1 hgood
      obtain ⟨hchildren, hafter⟩ := hstep node before hnode hsane hnow
      refine ⟨hafter, fun other hother => ?_, ?_⟩
      · rcases Multiset.mem_add.1 hother with hother | hother
        · exact hchildren other (Multiset.mem_coe.1 hother)
        · exact hrest other hother
      · exact List.forall_mem_cons.2 ⟨⟨node, before, hnode, hsane, rfl⟩, hvisits⟩
    | discard node rest before visits =>
      obtain ⟨hsane, hgood, hvisits⟩ := ih hfine
      exact ⟨hsane, (Multiset.forall_mem_cons.1 hgood).2, hvisits⟩

/-- What is in a pending node stays in one until it is covered, or gets lost with its node. -/
theorem covers (Within : Node α n → Prop) {Covered : SearchState α → Prop}
    {Lost : Visit α n → Prop}
    (hstep : ∀ node state, Good node → Sane state → Fine (s.evaluate v node state) →
      (∀ child ∈ (s.evaluate v node state).children, Good child) ∧
        Sane (s.evaluate v node state).state)
    (hkeep : ∀ node state, Good node → Sane state → Fine (s.evaluate v node state) →
      Covered state → Covered (s.evaluate v node state).state)
    (hsplit : ∀ node state, Good node → Sane state → Fine (s.evaluate v node state) →
      Within node → Covered (s.evaluate v node state).state ∨ Lost (s.evaluate v node state) ∨
        ∃ child ∈ (s.evaluate v node state).children, Within child)
    (hsane : ∀ state, Sane state → state.unbounded = false)
    (hrun : s.Proceeds v ⟨pending, state, []⟩ reached)
    (hpending : ∀ node ∈ pending, Good node) (hstate : Sane state)
    (hfine : ∀ visit ∈ reached.visits, Fine visit)
    (hwithin : Covered state ∨ ∃ node ∈ pending, Within node) :
    Covered reached.state ∨ (∃ visit ∈ reached.visits, Lost visit) ∨
      ∃ node ∈ reached.pending, Within node := by
  induction hrun with
  | refl => exact hwithin.imp id .inr
  | tail hbefore hadvance ih =>
    cases hadvance with
    | visit node rest before visits =>
      obtain ⟨hnow, hearlier⟩ := List.forall_mem_cons.1 hfine
      obtain ⟨hknown, hgood, -⟩ := preserves hstep hbefore hpending hstate hearlier
      have hnode := hgood node (Multiset.mem_cons_self _ _)
      rcases ih hearlier with hcovered | ⟨visit, hvisit, hlost⟩ | ⟨other, hother, hin⟩
      · exact .inl (hkeep node before hnode hknown hnow hcovered)
      · exact .inr (.inl ⟨visit, List.mem_cons_of_mem _ hvisit, hlost⟩)
      · rcases Multiset.mem_cons.1 hother with rfl | hother
        · rcases hsplit other before hnode hknown hnow hin with
            hcovered | hlost | ⟨child, hchild, hin⟩
          · exact .inl hcovered
          · exact .inr (.inl ⟨_, List.mem_cons_self, hlost⟩)
          · exact .inr (.inr ⟨child, Multiset.mem_add.2 (.inl (Multiset.mem_coe.2 hchild)), hin⟩)
        · exact .inr (.inr ⟨other, Multiset.mem_add.2 (.inr hother), hin⟩)
    | discard node rest before visits hunbounded =>
      obtain ⟨hknown, -, -⟩ := preserves hstep hbefore hpending hstate hfine
      rw [hsane _ hknown] at hunbounded
      cases hunbounded

end Proceeds

end Search

end LinProg
