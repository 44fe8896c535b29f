import LinProg.Proofs.Branching.Workers

/-!
# What becomes of a node

A node that was pushed waits in the frontier until one task pops it; that task holds it until it is
evaluated or dropped (`Accounted`).  Together with the accounts of the count this says that workers
lose no node and stop at the right time, however their actions interleave: a pop finds a node, the
count is never negative, and once it is back at zero every node was popped and judged.
-/

namespace LinProg.Workers

variable {ν : Type}

namespace Task

/-- The node that a task popped and did not judge yet. -/
def unjudged : Task ν → List ν
  | check node | evaluate node => [node]
  | start _ | pop | submit _ _ | finish => []

@[simp] theorem unjudged_submitAll (children : List ν) : (submitAll children).unjudged = [] := by
  cases children <;> rfl

end Task

namespace Pool

/-- Pushed nodes are in the frontier or were popped; popped nodes were judged or are in the hands of
a task. -/
structure Accounted (p : Pool ν) : Prop where
  pushed : (p.pushed : Multiset ν) = (p.frontier : Multiset ν) + p.popped
  popped : (p.popped : Multiset ν) =
    (p.evaluated : Multiset ν) + p.dropped + (p.tasks.flatMap Task.unjudged : List ν)
  /-- Nodes are dropped in an unbounded search only. -/
  dropped : p.dropped ≠ [] → p.unbounded = true

theorem accounted_init (root : ν) : (Pool.init root).Accounted :=
  ⟨rfl, rfl, fun h => absurd rfl h⟩

section Act

variable {p q : Pool ν} {before after : List (Task ν)} {task : Task ν}

theorem pushed_act (acts : Act before after task p q)
    (h : (p.pushed : Multiset ν) = (p.frontier : Multiset ν) + p.popped) :
    (q.pushed : Multiset ν) = (q.frontier : Multiset ν) + q.popped := by
  cases acts with
  | startPush _ node | push _ node =>
    simp only [Pool.push, ← Multiset.cons_coe, h, ← Multiset.singleton_add, add_assoc]
  | pop _ left right node hpop =>
    simp only [h, hpop, ← Multiset.coe_add, ← Multiset.cons_coe, ← Multiset.singleton_add]
    abel
  | startCount | startSpawn | popNothing | drop | keep | evaluate | fail | detectUnbounded | count
  | spawn | finish => exact h

/-- A pop hands a node to a task, which keeps it up to an evaluation or a drop. -/
theorem popped_act (here : p.tasks = before ++ task :: after) (acts : Act before after task p q)
    (h : (p.popped : Multiset ν) =
      (p.evaluated : Multiset ν) + p.dropped + (p.tasks.flatMap Task.unjudged : List ν)) :
    (q.popped : Multiset ν) =
      (q.evaluated : Multiset ν) + q.dropped + (q.tasks.flatMap Task.unjudged : List ν) := by
  simp only [here, List.flatMap_append, List.flatMap_cons, ← Multiset.coe_add] at h
  cases acts with
  | pop _ _ _ node | drop _ node | fail _ node | detectUnbounded _ node =>
    simp only [← Multiset.cons_coe, h, Task.unjudged, List.flatMap_append, List.flatMap_cons,
      ← Multiset.coe_add, ← Multiset.singleton_add, Multiset.coe_nil]
    abel
  | evaluate _ node =>
    simp only [← Multiset.cons_coe, h, Task.unjudged_submitAll, List.flatMap_append,
      List.flatMap_cons, ← Multiset.coe_add, ← Multiset.singleton_add, Multiset.coe_nil]
    simp only [Task.unjudged, Multiset.coe_singleton]
    abel
  | startSpawn | spawn =>
    simp only [h, Task.unjudged_submitAll, List.cons_append, List.flatMap_append,
      List.flatMap_cons, ← Multiset.coe_add, Multiset.coe_nil]
    simp only [Task.unjudged, Multiset.coe_nil, zero_add]
  | startPush | startCount | popNothing | keep | push | count | finish =>
    simp only [Pool.push, h, Task.unjudged, List.flatMap_append, List.flatMap_cons,
      ← Multiset.coe_add, Multiset.coe_nil, zero_add]

theorem dropped_act (acts : Act before after task p q)
    (h : p.dropped ≠ [] → p.unbounded = true) : q.dropped ≠ [] → q.unbounded = true := by
  cases acts with
  | drop _ node hunbounded => exact fun _ => hunbounded
  | detectUnbounded => exact fun _ => rfl
  | startPush | startCount | startSpawn | pop | popNothing | keep | evaluate | fail | push | count
  | spawn | finish => exact h

theorem Accounted.act (h : p.Accounted) (here : p.tasks = before ++ task :: after)
    (acts : Act before after task p q) : q.Accounted :=
  ⟨pushed_act acts h.pushed, popped_act here acts h.popped, dropped_act acts h.dropped⟩

end Act

theorem Balanced.frontier_ne_nil {p : Pool ν} (h : p.Balanced) (hpop : .pop ∈ p.tasks) :
    p.frontier ≠ [] := by
  have hle : Task.pops (.pop : Task ν) ≤ (p.tasks.map Task.pops).sum :=
    List.single_le_sum (fun _ _ => Nat.zero_le _) _ (List.mem_map_of_mem hpop)
  have hone : Task.pops (.pop : Task ν) = 1 := rfl
  have := h.frontier
  rintro hnil
  rw [hnil, List.length_nil] at this
  omega

/-- Once the root was submitted, the count is zero if and only if no task is left. -/
theorem Balanced.outstanding_eq_zero_iff {p : Pool ν} (h : p.Balanced)
    (hstart : ∀ submission, .start submission ∉ p.tasks) : p.outstanding = 0 ↔ p.tasks = [] := by
  refine ⟨fun hcount => h.tasks_eq_nil hcount hstart, fun htasks => ?_⟩
  rw [h.outstanding, htasks]
  rfl

theorem Balanced.frontier_eq_nil {p : Pool ν} (h : p.Balanced) (htasks : p.tasks = []) :
    p.frontier = [] := by
  rw [← List.length_eq_zero_iff, h.frontier, htasks]
  rfl

end Pool

theorem Reaches.preserves {I : Pool ν → Prop} {p q : Pool ν} (h : Reaches p q) (hp : I p)
    (hact : ∀ {p q : Pool ν} {before after : List (Task ν)} {task : Task ν}, I p →
      p.tasks = before ++ task :: after → Act before after task p q → I q) : I q := by
  induction h with
  | refl => exact hp
  | tail _ hstep ih =>
    cases hstep with
    | act before after task here acts => exact hact ih here acts

/-- Whatever the workers did so far: a pop finds a node, every pushed node waits or was popped once,
and the count is not negative.  After the root was submitted the count is zero just when no task is
left, and by then the frontier is empty and every pushed node was popped and evaluated, or dropped
by an unbounded search. -/
theorem accounts_of_reaches (root : ν) {p : Pool ν} (h : Reaches (.init root) p) :
    (.pop ∈ p.tasks → p.frontier ≠ []) ∧
      (p.pushed : Multiset ν) = (p.frontier : Multiset ν) + p.popped ∧
      0 ≤ p.outstanding ∧ (p.dropped ≠ [] → p.unbounded = true) ∧
      ((∀ submission, .start submission ∉ p.tasks) →
        (p.outstanding = 0 ↔ p.tasks = []) ∧
          (p.outstanding = 0 → p.frontier = [] ∧ (p.pushed : Multiset ν) = p.popped ∧
            (p.popped : Multiset ν) = (p.evaluated : Multiset ν) + p.dropped)) := by
  have hbalanced : p.Balanced := h.preserves (Pool.balanced_init root) Pool.Balanced.act
  have haccounted : p.Accounted := h.preserves (Pool.accounted_init root) Pool.Accounted.act
  refine ⟨hbalanced.frontier_ne_nil, haccounted.pushed, ?_, haccounted.dropped, fun hstart =>
    ⟨hbalanced.outstanding_eq_zero_iff hstart, fun hcount => ?_⟩⟩
  · rw [hbalanced.outstanding]
    exact Int.natCast_nonneg _
  · have htasks := hbalanced.tasks_eq_nil hcount hstart
    have hfrontier := hbalanced.frontier_eq_nil htasks
    refine ⟨hfrontier, ?_, ?_⟩
    · rw [haccounted.pushed, hfrontier, Multiset.coe_nil, zero_add]
    · rw [haccounted.popped, htasks, List.flatMap_nil, Multiset.coe_nil, add_zero]

/-- A root with two children.  The task spawned for the first child pops the second one, before it
is counted, and finds the search unbounded; so the first child is dropped. -/
theorem accounts_of_crossing :
    ∃ p : Pool Nat, Reaches (.init 0) p ∧ p.pushed = [2, 1, 0] ∧ p.popped = [1, 2, 0] ∧
      p.dropped = [1] ∧ p.outstanding = 0 ∧ p.tasks = [] ∧ p.frontier = [] ∧
      p.unbounded = true := by
  have submitted := (((Reaches.refl (Pool.init 0)).tail
    (.act [] [] _ rfl (.startPush _ 0))).tail
    (.act [] [] _ rfl (.startCount _))).tail
    (.act [] [] _ rfl (.startSpawn _))
  have evaluated := ((submitted.tail
    (.act [] [] _ rfl (.pop _ [] [] 0 rfl))).tail
    (.act [] [] _ rfl (.keep _ 0 rfl))).tail
    (.act [] [] _ rfl (.evaluate _ 0 [1, 2]))
  have crossed := ((((evaluated.tail
    (.act [] [] _ rfl (.push _ 1 [2]))).tail
    (.act [] [] _ rfl (.count _ [2]))).tail
    (.act [] [] _ rfl (.spawn _ [2]))).tail
    (.act [.pop] [] _ rfl (.push _ 2 []))).tail
    (.act [] [.submit .count []] _ rfl (.pop _ [] [1] 2 rfl))
  have counted := ((crossed.tail
    (.act [.check 2] [] _ rfl (.count _ []))).tail
    (.act [.check 2] [] _ rfl (.spawn _ []))).tail
    (.act [.pop, .check 2] [] _ rfl (.finish _))
  have stopped := ((counted.tail
    (.act [.pop] [] _ rfl (.keep _ 2 rfl))).tail
    (.act [.pop] [] _ rfl (.detectUnbounded _ 2))).tail
    (.act [.pop] [] _ rfl (.finish _))
  have done := ((stopped.tail
    (.act [] [] _ rfl (.pop _ [] [] 1 rfl))).tail
    (.act [] [] _ rfl (.drop _ 1 rfl))).tail
    (.act [] [] _ rfl (.finish _))
  obtain ⟨-, -, -, hdropped, hended⟩ := accounts_of_reaches 0 done
  obtain ⟨hcount, hall⟩ := hended (by rintro _ ⟨⟩)
  exact ⟨_, done, rfl, rfl, rfl, rfl, hcount.1 rfl, (hall rfl).1, hdropped (by decide)⟩

end LinProg.Workers
