import LinProg.Proofs.Branching.Evaluation
import LinProg.Proofs.Branching.MixedInteger

/-!
# What a node stands for

A node stands for the points of its problem that take the values of its eliminated variables
(`Contains`).  `Reached` collects what relates these points to the root, for all nodes that
branching leads to.  The children of a node share out its points, integral ones only if an integer
variable is bounded, and an optimum of the problem with the eliminated variables at their values
is a point of the root.
-/

namespace LinProg

open Denoting

variable {α : Type} [Integral α] [Denoting α] {n : Nat}

/-! ## Bounds of an integer level -/

namespace Side

/-- What a side asks of the variable of an integer level, given the value it is bounded around. -/
def Within (value : Rat) : Side → Rat → Prop
  | left, a => a ≤ ⌊value⌋
  | right, a => ⌈value⌉ ≤ a

theorem holds_bound {side : Side} {value : α} {a : Rat} (hvalue : IsNumber value) :
    side.bound.relation.Holds a (toRat (side.rounded value)) ↔ side.Within (toRat value) a := by
  cases side with
  | left =>
    show a ≤ toRat (Integral.floor value) ↔ a ≤ _
    rw [toRat_floor hvalue]
  | right =>
    show toRat (Integral.ceil value) ≤ a ↔ _ ≤ a
    rw [toRat_ceil hvalue]

theorem exists_within (value : Rat) (k : Int) : ∃ side : Side, side.Within value k := by
  by_cases hle : k ≤ ⌊value⌋
  · exact ⟨left, Int.cast_le.2 hle⟩
  · have hceil : ⌈value⌉ ≤ k := (Int.ceil_le_floor_add_one value).trans (by omega)
    exact ⟨right, Int.cast_le.2 hceil⟩

/-- The bounds have a point in common only around an integer. -/
theorem eq_floor_of_within {value a : Rat} (hleft : left.Within value a)
    (hright : right.Within value a) : value = ⌊value⌋ :=
  le_antisymm ((Int.le_ceil value).trans (hright.trans hleft)) (Int.floor_le value)

end Side

/-! ## Points of a node -/

namespace Node

def Agrees (node : Node α n) (z : Fin n → Rat) : Prop :=
  ∀ (v : Fin n) (value : α), (v.val, value) ∈ node.fixings → z v = toRat value

structure Contains (node : Node α n) (lp : LinearProgram α n) (z : Fin n → Rat) : Prop where
  agrees : node.Agrees z
  feasible : lp.read.Feasible z

/-- The point belongs to a node that still has its problem. -/
def Holds (node : Node α n) (z : Fin n → Rat) : Prop :=
  ∃ lp, node.problem = some lp ∧ node.Contains lp z

theorem agrees_child {node : Node α n} {side : Side} {v : Fin n} {value : α}
    {lp : LinearProgram α n} {z : Fin n → Rat} :
    (node.child ⟨side, some (v.val, value)⟩ lp).Agrees z ↔
      z v = toRat value ∧ node.Agrees z := by
  have hfixings : (node.child ⟨side, some (v.val, value)⟩ lp).fixings =
      (v.val, value) :: node.fixings := rfl
  unfold Agrees
  rw [hfixings]
  constructor
  · intro h
    exact ⟨h v value List.mem_cons_self, fun w a hw => h w a (List.mem_cons_of_mem _ hw)⟩
  · rintro ⟨hv, h⟩ w a hw
    rcases List.mem_cons.1 hw with heq | hw
    · obtain ⟨hval, rfl⟩ := Prod.mk.injEq .. ▸ heq
      rw [Fin.ext hval]
      exact hv
    · exact h w a hw

end Node

namespace MixedIntegerProgram

/-- What holds of every node of the search tree that has this problem. -/
structure Reached (p : MixedIntegerProgram α n) (node : Node α n) (lp : LinearProgram α n) :
    Prop where
  objective : lp.objective = p.relaxation.objective
  /-- Eliminated variables belong to the levels above, and matter no more. -/
  fixed : ∀ index value, (index, value) ∈ node.fixings → (value = 0 ∨ value = 1) ∧
    ∃ v : Fin n, v.val = index ∧ lp.read.Ignores v ∧
      ∃ i < node.level, p.branchingOrder[i]? = some v
  nodup : (node.fixings.map Prod.fst).Nodup
  /-- All binary variables of the levels above are eliminated. -/
  complete : ∀ i < node.level, i < p.binaries.members.length →
    ∀ v, p.branchingOrder[i]? = some v → ∃ value, (v.val, value) ∈ node.fixings
  root : ∀ z, node.Contains lp z → p.root.read.Feasible z
  value : ∀ z, node.Agrees z → lp.read.value z = p.relaxation.read.value z

variable {p : MixedIntegerProgram α n} {node : Node α n} {lp : LinearProgram α n}

theorem reached_root (p : MixedIntegerProgram α n) : p.Reached (.root p.root) p.root where
  objective := p.objective_root
  fixed _ _ h := nomatch h
  nodup := List.nodup_nil
  complete _ h := nomatch h
  root _ h := h.feasible
  value z _ := p.value_root z

namespace Reached

theorem takeProblem (h : p.Reached node lp) : p.Reached node.takeProblem.2 lp :=
  ⟨h.objective, h.fixed, h.nodup, h.complete, fun z hz => h.root z ⟨hz.agrees, hz.feasible⟩,
    h.value⟩

/-! ## Children -/

theorem not_fixed (h : p.Reached node lp) {v : Fin n}
    (hv : p.branchingOrder[node.level]? = some v) (value : α) : (v.val, value) ∉ node.fixings := by
  intro hmem
  obtain ⟨-, w, hw, -, i, hi, hlevel⟩ := h.fixed _ _ hmem
  obtain rfl := Fin.ext hw
  have := level_unique hlevel hv
  omega

theorem binaryChild (h : p.Reached node lp) {v : Fin n}
    (hv : p.branchingOrder[node.level]? = some v) {value : α} (hvalue : value = 0 ∨ value = 1)
    (hexact : lp.FixesExactly v value) (side : Side) :
    p.Reached (node.child ⟨side, some (v.val, value)⟩ (lp.fix v value)) (lp.fix v value) where
  objective := h.objective
  fixed index a hmem := by
    rcases List.mem_cons.1 hmem with heq | hmem
    · obtain ⟨rfl, rfl⟩ := Prod.mk.injEq .. ▸ heq
      exact ⟨hvalue, v, rfl, LinearProgram.ignores_fix (.inl rfl), node.level,
        Nat.lt_succ_self _, hv⟩
    · obtain ⟨ha, w, hw, hignores, i, hi, hlevel⟩ := h.fixed _ _ hmem
      exact ⟨ha, w, hw, LinearProgram.ignores_fix (.inr hignores), i, Nat.lt_succ_of_lt hi, hlevel⟩
  nodup := by
    refine List.nodup_cons.2 ⟨fun hmem => ?_, h.nodup⟩
    obtain ⟨⟨index, a⟩, hmem, rfl⟩ := List.mem_map.1 hmem
    exact h.not_fixed hv a hmem
  complete i hi hbinary w hw := by
    rcases Nat.lt_succ_iff_lt_or_eq.1 hi with hi | rfl
    · obtain ⟨a, ha⟩ := h.complete i hi hbinary w hw
      exact ⟨a, List.mem_cons_of_mem _ ha⟩
    · obtain rfl := Option.some.inj (hv.symm.trans hw)
      exact ⟨value, List.mem_cons_self⟩
  root z hz := by
    obtain ⟨hvz, hagrees⟩ := Node.agrees_child.1 hz.agrees
    exact h.root z ⟨hagrees, (LinearProgram.feasible_fix hexact hvz).1 hz.feasible⟩
  value z hz := by
    obtain ⟨hvz, hagrees⟩ := Node.agrees_child.1 hz
    rw [LinearProgram.value_fix hexact hvz]
    exact h.value z hagrees

theorem integerChild (h : p.Reached node lp) {v : Fin n}
    (hv : p.branchingOrder[node.level]? = some v) (hlevel : p.binaries.members.length ≤ node.level)
    (side : Side) (r : Relation) (rhs : α) :
    p.Reached (node.child ⟨side, none⟩ (lp.addBound v r rhs)) (lp.addBound v r rhs) where
  objective := h.objective
  fixed index a hmem := by
    obtain ⟨ha, w, rfl, hignores, i, hi, hw⟩ := h.fixed index a hmem
    refine ⟨ha, w, rfl, hignores.addBound ?_ r rhs, i, Nat.lt_succ_of_lt hi, hw⟩
    rintro rfl
    exact h.not_fixed hv a hmem
  nodup := h.nodup
  complete i hi hbinary w hw := h.complete i (by omega) hbinary w hw
  root z hz := h.root z ⟨hz.agrees, (LinearProgram.feasible_addBound.1 hz.feasible).1⟩
  value z hz := (LinearProgram.value_addBound ..).trans (h.value z hz)

end Reached

/-- Fixing a binary variable loses no point at which it is binary. -/
theorem holds_binaryChildren {v : Fin n} {z : Fin n → Rat} (hz : node.Contains lp z)
    (hv : z v = 0 ∨ z v = 1) (hzero : lp.FixesExactly v 0) (hone : lp.FixesExactly v 1) :
    ∃ child ∈ Search.binaryChildren node lp v, child.Holds z := by
  obtain ⟨side, hside, hexact⟩ :
      ∃ side : Side, z v = toRat (side.fixed : α) ∧ lp.FixesExactly v side.fixed := by
    rcases hv with hv | hv
    · exact ⟨.left, hv.trans toRat_zero.symm, hzero⟩
    · exact ⟨.right, hv.trans toRat_one.symm, hone⟩
  exact ⟨_, Search.mem_binaryChildren.2 ⟨side, rfl⟩, _, rfl,
    Node.agrees_child.2 ⟨hside, hz.agrees⟩, (LinearProgram.feasible_fix hexact hside).2 hz.feasible⟩

/-- Bounding an integer variable around any number loses no point at which it is an integer. -/
theorem holds_integerChildren {v : Fin n} {z : Fin n → Rat} {value : α}
    (hz : node.Contains lp z) (hv : ∃ k : Int, z v = k) (hvalue : IsNumber value) :
    ∃ child ∈ Search.integerChildren node lp v value, child.Holds z := by
  obtain ⟨k, hk⟩ := hv
  obtain ⟨side, hside⟩ := Side.exists_within (toRat value) k
  refine ⟨_, Search.mem_integerChildren.2 ⟨side, rfl⟩, _, rfl, hz.agrees, ?_⟩
  rw [LinearProgram.feasible_addBound, Side.holds_bound hvalue, hk]
  exact ⟨hz.feasible, hside⟩

end MixedIntegerProgram

end LinProg
