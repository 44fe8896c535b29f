import LinProg.Branching.Workers
import Mathlib.Algebra.Order.BigOperators.Group.List
import Mathlib.Algebra.Order.Group.Multiset
import Mathlib.Algebra.Order.Group.Nat
import Mathlib.Tactic.Abel

/-!
# What the workers account for

Every node in the frontier is waited for by one task, which is about to pop or about to be spawned,
and every unit of the count belongs to a task (`Balanced`).  So when the count is back at zero after
the root was submitted, no task and no node is left (`Balanced.tasks_eq_nil`).  `Pool.pending`
collects the nodes that were handed to the workers and not evaluated yet: an evaluation replaces a
node by its children, a node may be dropped once the search is unbounded, and nothing else changes
them.
-/

namespace LinProg.Workers

variable {ν : Type}

/-! ## What a task stands for -/

namespace Task

/-- How many nodes of the frontier a task will pop, itself or through a task it is about to
spawn. -/
def pops : Task ν → Nat
  | start (.push _) => 0
  | start .count | start .spawn => 1
  | pop => 1
  | check _ | evaluate _ => 0
  | submit (.push _) _ => 0
  | submit .count _ | submit .spawn _ => 1
  | finish => 0

/-- How much of the count belongs to a task, or to one it is about to spawn. -/
def share : Task ν → Nat
  | start .spawn => 1
  | start (.push _) | start .count => 0
  | submit .spawn _ => 2
  | submit (.push _) _ | submit .count _ => 1
  | pop | check _ | evaluate _ | finish => 1

def held : Task ν → List ν
  | start (.push root) => [root]
  | check node | evaluate node => [node]
  | submit (.push child) later => child :: later
  | submit .count later | submit .spawn later => later
  | start .count | start .spawn | pop | finish => []

@[simp] theorem held_submitAll (children : List ν) : (submitAll children).held = children := by
  cases children <;> rfl

/-- Only a task that is about to submit the root has no share. -/
theorem share_pos {task : Task ν} (h : ∀ submission, task ≠ .start submission) :
    0 < task.share := by
  cases task with
  | start submission => exact absurd rfl (h submission)
  | submit submission => cases submission <;> simp [share]
  | pop | check | evaluate | finish => simp [share]

end Task

/-! ## Accounts of a pool -/

namespace Pool

/-- Nodes are waited for, and the count is shared. -/
structure Balanced (p : Pool ν) : Prop where
  frontier : p.frontier.length = (p.tasks.map Task.pops).sum
  outstanding : p.outstanding = ((p.tasks.map Task.share).sum : Nat)

def pending (p : Pool ν) : Multiset ν :=
  (p.frontier : Multiset ν) + (p.tasks.flatMap Task.held : List ν)

theorem balanced_init (root : ν) : (Pool.init root).Balanced := ⟨rfl, rfl⟩

theorem Balanced.act {p q : Pool ν} {before after : List (Task ν)} {task : Task ν}
    (h : p.Balanced) (here : p.tasks = before ++ task :: after)
    (acts : Act before after task p q) : q.Balanced := by
  obtain ⟨hfrontier, houtstanding⟩ := h
  simp only [here, List.map_append, List.map_cons, List.sum_append, List.sum_cons]
    at hfrontier houtstanding
  cases acts with
  | evaluate _ _ children =>
    cases children <;> constructor <;> simp_all [Task.submitAll, Task.pops, Task.share]
  | spawn _ later =>
    cases later <;> constructor <;> simp_all [Task.submitAll, Task.pops, Task.share] <;> omega
  | startPush | startCount | startSpawn | pop | popNothing | drop | keep | fail | detectUnbounded
  | push | count | finish =>
    constructor <;> simp_all [Pool.push, Task.pops, Task.share] <;> omega

theorem Balanced.tasks_eq_nil {p : Pool ν} (h : p.Balanced) (hcount : p.outstanding = 0)
    (hstart : ∀ submission, .start submission ∉ p.tasks) : p.tasks = [] := by
  have hsum : (p.tasks.map Task.share).sum = 0 := by
    have := h.outstanding
    omega
  refine List.eq_nil_iff_forall_not_mem.2 fun task htask => ?_
  have hpos : 0 < task.share := Task.share_pos fun submission heq => hstart submission (heq ▸ htask)
  have hle : task.share ≤ (p.tasks.map Task.share).sum :=
    List.single_le_sum (fun _ _ => Nat.zero_le _) _ (List.mem_map_of_mem htask)
  omega

theorem Balanced.pending_eq_zero {p : Pool ν} (h : p.Balanced) (hcount : p.outstanding = 0)
    (hstart : ∀ submission, .start submission ∉ p.tasks) : p.pending = 0 := by
  have htasks := h.tasks_eq_nil hcount hstart
  have hfrontier : p.frontier = [] := by
    rw [← List.length_eq_zero_iff, h.frontier, htasks]
    rfl
  rw [pending, htasks, hfrontier]
  rfl

/-! ## Pending nodes -/

theorem pending_eq {p : Pool ν} {before after : List (Task ν)} {task : Task ν}
    (here : p.tasks = before ++ task :: after) :
    p.pending = (task.held : Multiset ν) +
      ((p.frontier : Multiset ν) + ((before ++ after).flatMap Task.held : List ν)) := by
  simp only [pending, here, List.flatMap_append, List.flatMap_cons, ← Multiset.coe_add]
  abel

/-- An action that evaluates nothing keeps the pending nodes, but for those that are dropped. -/
theorem pending_act {p q : Pool ν} {before after : List (Task ν)} {task : Task ν}
    (here : p.tasks = before ++ task :: after) (acts : Act before after task p q)
    (other : ∀ node, task ≠ .evaluate node) :
    q.unbounded = p.unbounded ∧
      (q.pending = p.pending ∨ p.unbounded = true ∧ ∃ node, p.pending = node ::ₘ q.pending) := by
  rw [pending_eq here]
  cases acts with
  | evaluate | fail | detectUnbounded => exact absurd rfl (other _)
  | drop _ node hunbounded =>
    refine ⟨rfl, .inr ⟨hunbounded, node, ?_⟩⟩
    simp only [pending, Task.held, List.flatMap_append, List.flatMap_cons, List.nil_append,
      Multiset.coe_add, Multiset.coe_singleton, Multiset.singleton_add]
  | pop _ left right node hpop =>
    refine ⟨rfl, .inl ?_⟩
    simp only [pending, hpop, Task.held, List.flatMap_append, List.flatMap_cons,
      ← Multiset.coe_add, ← Multiset.cons_coe, ← Multiset.singleton_add, Multiset.coe_nil]
    abel
  | spawn _ later =>
    refine ⟨rfl, .inl ?_⟩
    simp only [pending, List.cons_append, List.flatMap_append, List.flatMap_cons,
      Task.held_submitAll, ← Multiset.coe_add]
    simp only [Task.held, Multiset.coe_nil]
    abel
  | startPush | startCount | startSpawn | popNothing | keep | push | count | finish =>
    refine ⟨rfl, .inl ?_⟩
    simp only [pending, Pool.push, Task.held, List.cons_append, List.flatMap_append,
      List.flatMap_cons, List.nil_append, ← Multiset.coe_add, ← Multiset.cons_coe,
      ← Multiset.singleton_add, Multiset.coe_nil]
    abel

end Pool

end LinProg.Workers
