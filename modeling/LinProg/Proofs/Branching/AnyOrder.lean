import LinProg.Branching.SharedSearch
import LinProg.Proofs.Branching.Exploration
import LinProg.Proofs.Branching.Workers

/-!
# Searches that come to their end

A search is complete when no node is left to visit, be it explored one by one in the order of a
frontier or by several workers (`Completes`).  Every complete search proceeds from the root until
nothing is pending (`Completes.proceeds`): the actions of the workers other than evaluations either
leave the pending nodes alone or drop one when the search is unbounded.
-/

namespace LinProg

variable {α : Type} [Integral α] {n : Nat}

/-! ## Several workers -/

namespace SharedSearch

variable {s : Search α n} {v : Verbosity} {root : Node α n}

/-- How far the workers have come, and that they keep their accounts. -/
structure Tracks (s : Search α n) (v : Verbosity) (root : Node α n) (x : SharedSearch α n) :
    Prop where
  balanced : x.pool.Balanced
  unbounded : x.pool.unbounded = x.state.unbounded
  proceeds : s.Proceeds v ⟨{root}, {}, []⟩ ⟨x.pool.pending, x.state, x.visits⟩

theorem pending_evaluate (x : SharedSearch α n) (s : Search α n) (v : Verbosity)
    {before after : List (Workers.Task (Node α n))} {node : Node α n}
    (here : x.pool.tasks = before ++ .evaluate node :: after) :
    ∃ rest, x.pool.pending = node ::ₘ rest ∧
      (x.evaluate s v before after node).pool.pending =
        (s.evaluate v node x.state).children + rest := by
  have htasks : (x.evaluate s v before after node).pool.tasks =
      before ++ .submitAll (s.evaluate v node x.state).children :: after := rfl
  have hafter := Workers.Pool.pending_eq htasks
  rw [Workers.Task.held_submitAll] at hafter
  exact ⟨_, (Workers.Pool.pending_eq here).trans (Multiset.singleton_add _ _), hafter⟩

theorem Tracks.evaluate {x : SharedSearch α n} (h : x.Tracks s v root)
    {before after : List (Workers.Task (Node α n))} {node : Node α n}
    (here : x.pool.tasks = before ++ .evaluate node :: after) :
    (x.evaluate s v before after node).Tracks s v root := by
  obtain ⟨rest, hbefore, hafter⟩ := x.pending_evaluate s v here
  have hbalanced := h.balanced.act here
    (.evaluate x.pool node (s.evaluate v node x.state).children)
  refine ⟨⟨hbalanced.frontier, hbalanced.outstanding⟩, rfl, ?_⟩
  have hproceeds := h.proceeds
  rw [hbefore] at hproceeds
  rw [hafter]
  exact hproceeds.tail (.visit node rest x.state x.visits)

theorem Tracks.act {x : SharedSearch α n} (h : x.Tracks s v root)
    {before after : List (Workers.Task (Node α n))} {task : Workers.Task (Node α n)}
    {q : Workers.Pool (Node α n)} (here : x.pool.tasks = before ++ task :: after)
    (acts : Workers.Act before after task x.pool q) (other : ∀ node, task ≠ .evaluate node) :
    Tracks s v root { x with pool := q } := by
  obtain ⟨hunbounded, hpending⟩ := Workers.Pool.pending_act here acts other
  refine ⟨h.balanced.act here acts, hunbounded.trans h.unbounded, ?_⟩
  rcases hpending with hsame | ⟨hstopped, node, hdropped⟩
  · rw [hsame]
    exact h.proceeds
  · have hproceeds := h.proceeds
    rw [hdropped] at hproceeds
    exact hproceeds.tail (.discard node q.pending x.state x.visits (h.unbounded ▸ hstopped))

theorem Reaches.tracks {x : SharedSearch α n} (h : Reaches s v root x) : x.Tracks s v root := by
  induction h with
  | init => exact ⟨Workers.Pool.balanced_init root, rfl, .refl⟩
  | tail _ hstep ih =>
    cases hstep with
    | evaluate before after node here => exact ih.evaluate here
    | act before after task q here acts other => exact ih.act here acts other

/-- Workers that ended their search have left no node behind. -/
theorem Reaches.proceeds {x : SharedSearch α n} (h : Reaches s v root x) (hended : x.Ended) :
    s.Proceeds v ⟨{root}, {}, []⟩ ⟨0, x.state, x.visits⟩ := by
  have hpending : x.pool.pending = 0 := h.tracks.balanced.pending_eq_zero hended.1 hended.2
  exact hpending ▸ h.tracks.proceeds

end SharedSearch

/-! ## Complete searches -/

namespace Search

/-- A search below the root of this problem that came to its end in a state, with its visits. -/
inductive Completes (s : Search α n) (v : Verbosity) (lp : LinearProgram α n) :
    SearchState α → List (Visit α n) → Prop
  /-- One node after the other, as the frontier has them. -/
  | alone (φ : Type) [Frontier φ (Node α n)] [LawfulFrontier φ (Node α n)] :
      Completes s v lp (s.explore φ v (.root lp)).state (s.explore φ v (.root lp)).visits
  /-- By several workers, however they interleave. -/
  | shared {x : SharedSearch α n} (hreaches : SharedSearch.Reaches s v (.root lp) x)
      (hended : x.Ended) :
      Completes s v lp x.state x.visits.reverse
  /-- With the next node picked in any way at all. -/
  | picked {last : SearchState α} {visits : List (Visit α n)}
      (hproceeds : s.Proceeds v ⟨{.root lp}, {}, []⟩ ⟨0, last, visits⟩) :
      Completes s v lp last visits.reverse

theorem Completes.proceeds {s : Search α n} {v : Verbosity} {lp : LinearProgram α n}
    {last : SearchState α} {visits : List (Visit α n)} (h : s.Completes v lp last visits) :
    s.Proceeds v ⟨{.root lp}, {}, []⟩ ⟨0, last, visits.reverse⟩ := by
  cases h with
  | alone φ =>
    have hrun := (explores_explore (φ := φ) s v (.root lp) rfl).proceeds []
    rw [LawfulFrontier.contents_push, LawfulFrontier.contents_empty, List.append_nil] at hrun
    exact hrun
  | shared hreaches hended =>
    rw [List.reverse_reverse]
    exact hreaches.proceeds hended
  | picked hproceeds => rwa [List.reverse_reverse]

end Search

end LinProg
