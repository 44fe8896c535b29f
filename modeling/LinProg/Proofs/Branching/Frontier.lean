import LinProg.Branching.Frontier
import Mathlib.Data.Multiset.AddSub
import Mathlib.Data.Multiset.Basic

/-!
# Frontiers that lose nothing

A lawful frontier gives back what was pushed, every node once, in any order.
-/

namespace LinProg

/-- A frontier holds some `contents`, and is out of nodes only when there are none. -/
class LawfulFrontier (φ : Type) (ν : outParam Type) [Frontier φ ν] where
  contents : φ → Multiset ν
  contents_empty : contents Frontier.empty = 0
  contents_push (f : φ) (node : ν) : contents (Frontier.push f node) = node ::ₘ contents f
  contents_pop {f : φ} : match Frontier.pop? f with
    | none => contents f = 0
    | some (node, rest) => contents f = node ::ₘ contents rest

namespace LawfulFrontier

variable {φ ν : Type} [Frontier φ ν] [LawfulFrontier φ ν]

theorem contents_of_pop_none {f : φ} (h : Frontier.pop? f = none) : contents f = 0 := by
  have := contents_pop (f := f)
  rwa [h] at this

theorem contents_of_pop_some {f rest : φ} {node : ν} (h : Frontier.pop? f = some (node, rest)) :
    contents f = node ::ₘ contents rest := by
  have := contents_pop (f := f)
  rwa [h] at this

theorem contents_pushAll (nodes : List ν) (f : φ) :
    contents (Frontier.pushAll f nodes) = (nodes : Multiset ν) + contents f := by
  induction nodes generalizing f with
  | nil => simp [Frontier.pushAll]
  | cons node rest ih =>
    show contents (Frontier.pushAll (Frontier.push f node) rest) = _
    rw [ih, contents_push, ← Multiset.cons_coe, Multiset.add_cons, Multiset.cons_add]

theorem mem_pushAll {nodes : List ν} {f : φ} {node : ν} :
    node ∈ contents (Frontier.pushAll f nodes) ↔ node ∈ nodes ∨ node ∈ contents f := by
  rw [contents_pushAll, Multiset.mem_add, Multiset.mem_coe]

/-- What holds of all pending nodes still does when one of them is replaced by nodes it holds
of. -/
theorem forall_contents_step {P : ν → Prop} {f rest : φ} {node : ν}
    (hpop : Frontier.pop? f = some (node, rest)) (h : ∀ node ∈ contents f, P node)
    {nodes : List ν} (hnodes : ∀ node ∈ nodes, P node) :
    ∀ node ∈ contents (Frontier.pushAll rest nodes), P node := by
  intro other hother
  rcases mem_pushAll.1 hother with hother | hother
  · exact hnodes other hother
  · exact h other (contents_of_pop_some hpop ▸ Multiset.mem_cons_of_mem hother)

end LawfulFrontier

instance {ν : Type} : LawfulFrontier (DepthFirst ν) ν where
  contents f := f.stack
  contents_empty := rfl
  contents_push _ _ := rfl
  contents_pop {f} := by
    obtain ⟨_ | _⟩ := f <;> rfl

instance {ν : Type} : LawfulFrontier (BreadthFirst ν) ν where
  contents f := (f.front : Multiset ν) + f.back
  contents_empty := rfl
  contents_push f node := by
    show (f.front : Multiset ν) + (node :: f.back : List ν) = _
    rw [← Multiset.cons_coe, Multiset.add_cons]
  contents_pop {f} := by
    obtain ⟨front, back⟩ := f
    cases front with
    | cons node rest => exact Multiset.cons_add node rest back
    | nil =>
      -- the back is reversed to become the front
      simp only [Frontier.pop?]
      rw [← Multiset.coe_reverse back]
      cases back.reverse with
      | nil => rfl
      | cons node rest =>
        show ([] : List ν) + ((node :: rest : List ν) : Multiset ν) =
          node ::ₘ ((rest : Multiset ν) + ([] : List ν))
        rw [Multiset.coe_nil, Multiset.zero_add, Multiset.add_zero, Multiset.cons_coe]

end LinProg
