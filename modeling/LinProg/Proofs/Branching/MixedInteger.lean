import LinProg.Branching.MixedInteger
import LinProg.Proofs.Program.Fixing

/-!
# Points of mixed integer programs

The branching order names every integer and binary variable once, binary ones first.  The root has
the points of the relaxation whose binary variables are one at most: where no row is added for a
variable, some row implies the bound.
-/

namespace LinProg.MixedIntegerProgram

open Denoting

variable {α : Type} {n : Nat}

/-! ## The branching order -/

theorem mem_branchingOrder {p : MixedIntegerProgram α n} {v : Fin n} :
    v ∈ p.branchingOrder ↔ v ∈ p.binaries.members ∨ v ∈ p.integers.members := by
  rw [branchingOrder, List.mem_append, List.mem_filter]
  by_cases h : v ∈ p.binaries.members <;> simp [h]

theorem nodup_branchingOrder (p : MixedIntegerProgram α n) : p.branchingOrder.Nodup := by
  have hbinaries : p.binaries.members.Nodup := p.binaries.increasing.imp Fin.ne_of_lt
  have hintegers : p.integers.members.Nodup := p.integers.increasing.imp Fin.ne_of_lt
  refine List.nodup_append.2 ⟨hbinaries, hintegers.filter _, ?_⟩
  rintro v hv w hw rfl
  simp [hv] at hw

theorem mem_binaries_of_level {p : MixedIntegerProgram α n} {level : Nat} {v : Fin n}
    (hv : p.branchingOrder[level]? = some v) (hlevel : level < p.binaries.members.length) :
    v ∈ p.binaries.members := by
  rw [branchingOrder, List.getElem?_append_left hlevel] at hv
  exact List.mem_of_getElem? hv

theorem mem_integers_of_level {p : MixedIntegerProgram α n} {level : Nat} {v : Fin n}
    (hv : p.branchingOrder[level]? = some v) (hlevel : p.binaries.members.length ≤ level) :
    v ∈ p.integers.members := by
  rw [branchingOrder, List.getElem?_append_right hlevel] at hv
  exact (List.mem_filter.1 (List.mem_of_getElem? hv)).1

theorem level_unique {p : MixedIntegerProgram α n} {i j : Nat} {v : Fin n}
    (hi : p.branchingOrder[i]? = some v) (hj : p.branchingOrder[j]? = some v) : i = j := by
  obtain ⟨hlt, -⟩ := List.getElem?_eq_some_iff.1 hi
  exact (List.getElem?_inj hlt p.nodup_branchingOrder).1 (hi.trans hj.symm)

theorem mem_order [Integral α] {p : MixedIntegerProgram α n}
    {relax : LinearProgram α n → Solution α × List Message} {index : Nat} :
    index ∈ (p.search relax).order ↔ ∃ v ∈ p.branchingOrder, v.val = index :=
  List.mem_map

theorem getElem?_order [Integral α] {p : MixedIntegerProgram α n}
    {relax : LinearProgram α n → Solution α × List Message} {level : Nat} {w : Fin n} :
    (p.search relax).order[level]? = some w.val ↔ p.branchingOrder[level]? = some w := by
  show (p.branchingOrder.map (·.val))[level]? = some w.val ↔ _
  rw [List.getElem?_map, Option.map_eq_some_iff]
  constructor
  · rintro ⟨u, hu, hval⟩
    rw [← Fin.ext hval]
    exact hu
  · intro h
    exact ⟨w, h, rfl⟩

/-! ## Rows of the root -/

theorem addBounds_eq [Scalar α] (vs : List (Fin n)) (lp : LinearProgram α n) :
    vs.foldl (fun lp v => lp.addBound v .atMost 1) lp =
      { lp with
        constraints := lp.constraints ++ vs.map fun v => Constraint.bound v .atMost 1 } := by
  induction vs generalizing lp with
  | nil => rw [List.map_nil, List.append_nil, List.foldl_nil]
  | cons v rest ih =>
    rw [List.foldl_cons, ih, List.map_cons, List.append_cons lp.constraints]
    rfl

/-- The added rows come after all others, and nothing else changes. -/
theorem root_eq [Scalar α] (p : MixedIntegerProgram α n) :
    p.root =
      { p.relaxation with
        constraints := p.relaxation.constraints ++
          p.unbounded.map fun v => Constraint.bound v .atMost 1 } :=
  addBounds_eq _ _

theorem objective_root [Scalar α] (p : MixedIntegerProgram α n) :
    p.root.objective = p.relaxation.objective := by
  rw [root_eq]

/-! ## Admissible points -/

variable [Integral α] [Denoting α]

/-- A point that satisfies the relaxation and has integral and binary values where it has to. -/
structure Admissible (p : MixedIntegerProgram α n) (z : Fin n → Rat) : Prop where
  feasible : p.relaxation.read.Feasible z
  integral : ∀ v ∈ p.integers.members, ∃ k : Int, z v = k
  binary : ∀ v ∈ p.binaries.members, z v = 0 ∨ z v = 1

/-! ## The root -/

theorem le_one_of_hasUpperBound {p : MixedIntegerProgram α n} {v : Fin n} {z : Fin n → Rat}
    (hv : p.hasUpperBound v = true) (hz : p.relaxation.read.Feasible z) : z v ≤ 1 := by
  obtain ⟨c, hc, hbound⟩ := List.any_eq_true.1 hv
  simp only [isUpperBound, Bool.and_eq_true, decide_eq_true_eq, Bool.not_eq_true',
    List.any_eq_false, List.mem_finRange, forall_const] at hbound
  obtain ⟨⟨⟨hrhs, hone⟩, hrelation⟩, hspoils⟩ := hbound
  obtain ⟨hrows, hsigns⟩ := LinearProgram.feasible_read.1 hz
  have hterm (w : Fin n) : 0 ≤ (c.coefficients.map toRat).get w * z w := by
    have hw := hspoils w
    simp only [spoilsBound, Bool.or_eq_true, Bool.and_eq_true, Bool.not_eq_true', not_or,
      not_and, Bool.not_eq_true, List.contains_eq_mem, decide_eq_true_eq] at hw
    rw [entry_read]
    cases hzero : Scalar.isZero (c.coefficients.get w) with
    | true => rw [toRat_of_isZero hzero, zero_mul]
    | false => exact mul_nonneg (toRat_nonneg hw.1) (hsigns w (hw.2 hzero))
  have hdot : dot (c.coefficients.map toRat) z ≤ 1 := by
    have hholds := Constraint.holds_read.1 (hrows c hc)
    rw [toRat_of_isOne hrhs] at hholds
    cases hr : c.relation with
    | equal => rw [hr] at hholds; exact le_of_eq hholds
    | atLeast => exact absurd hr hrelation
    | atMost => rw [hr] at hholds; exact hholds
  calc z v = (c.coefficients.map toRat).get v * z v := by
        rw [entry_read, toRat_of_isOne hone, one_mul]
    _ ≤ dot (c.coefficients.map toRat) z :=
        Finset.single_le_sum (fun w _ => hterm w) (Finset.mem_univ v)
    _ ≤ 1 := hdot

/-- The root keeps binary variables at one at most, and nothing else from the relaxation. -/
theorem feasible_root {p : MixedIntegerProgram α n} {z : Fin n → Rat} :
    p.root.read.Feasible z ↔
      p.relaxation.read.Feasible z ∧ ∀ v ∈ p.binaries.members, z v ≤ 1 := by
  have hrow (v : Fin n) :
      (Constraint.bound v .atMost (1 : α)).read.Holds z ↔ z v ≤ 1 := by
    rw [Constraint.holds_bound, toRat_one]
    rfl
  rw [root_eq, LinearProgram.feasible_read, LinearProgram.feasible_read]
  simp only [List.forall_mem_append, List.forall_mem_map, hrow]
  rw [and_right_comm, ← LinearProgram.feasible_read]
  refine and_congr_right fun hz => ?_
  constructor
  · intro h v hv
    cases hbound : p.hasUpperBound v with
    | true => exact le_one_of_hasUpperBound hbound hz
    | false => exact h v (List.mem_filter.2 ⟨hv, by rw [hbound]; rfl⟩)
  · intro h v hv
    exact h v (List.mem_filter.1 hv).1

/-- The rows of the root bound the binary variables and say nothing else that those of the
relaxation don't, at all points with the signs that it asks for.  A variable without a row of its
own is one at most at all feasible points; the added rows come last. -/
theorem root_bounds_binaries (p : MixedIntegerProgram α n) :
    (∀ z, (∀ v, v ∉ p.relaxation.free.members → 0 ≤ z v) →
      (p.root.read.Satisfies z ↔
        p.relaxation.read.Satisfies z ∧ ∀ v ∈ p.binaries.members, z v ≤ 1)) ∧
    (∀ v, p.hasUpperBound v = true → ∀ z, p.relaxation.read.Feasible z → z v ≤ 1) ∧
    p.root =
      { p.relaxation with
        constraints := p.relaxation.constraints ++
          (p.binaries.members.filter fun v => !p.hasUpperBound v).map fun v =>
            Constraint.bound v .atMost 1 } := by
  refine ⟨fun z hsigns => ?_, fun v hv z hz => le_one_of_hasUpperBound hv hz, root_eq p⟩
  have hrelaxation : p.relaxation.read.Feasible z ↔ p.relaxation.read.Satisfies z :=
    LinearProgram.feasible_iff.trans (and_iff_left hsigns)
  have hroot : p.root.read.Feasible z ↔ p.root.read.Satisfies z := by
    refine LinearProgram.feasible_iff.trans (and_iff_left ?_)
    rw [root_eq]
    exact hsigns
  rw [← hroot, feasible_root, hrelaxation]

/-- The first row bounds the first variable, the second one doesn't bound the second variable. -/
def impliedProgram : MixedIntegerProgram Rat 3 where
  relaxation :=
    { objective := .maximize
      constant := 0
      cost := #v[1, 1, 0]
      constraints := [⟨#v[1, 1 / 2, 0], .atMost, 1⟩, ⟨#v[0, 1, -1], .atMost, 1⟩]
      free := .empty }
  integers := .empty
  binaries := .ofList [0, 1]

/-- At (0, 2, 1) both rows hold, but not the bound of the second variable. -/
theorem impliedProgram_root :
    impliedProgram.root.nrConstraints = 3 ∧
      (∀ z, impliedProgram.relaxation.read.Feasible z → z 0 ≤ 1) ∧
      impliedProgram.relaxation.read.Satisfies ![0, 2, 1] ∧
      ¬impliedProgram.root.read.Satisfies ![0, 2, 1] := by
  obtain ⟨hrows, himplied, -⟩ := root_bounds_binaries impliedProgram
  refine ⟨by decide +kernel, himplied 0 (by decide +kernel), by decide +kernel, fun hroot => ?_⟩
  obtain ⟨-, hbinaries⟩ := (hrows _ (by decide +kernel)).1 hroot
  exact absurd (hbinaries 1 (by decide)) (by decide +kernel)

theorem value_root (p : MixedIntegerProgram α n) (z : Fin n → Rat) :
    p.root.read.value z = p.relaxation.read.value z := by
  rw [root_eq]
  rfl

theorem Admissible.root {p : MixedIntegerProgram α n} {z : Fin n → Rat} (h : p.Admissible z) :
    p.root.read.Feasible z := by
  refine feasible_root.2 ⟨h.feasible, fun v hv => ?_⟩
  rcases h.binary v hv with hz | hz <;> rw [hz]
  exact zero_le_one

end LinProg.MixedIntegerProgram
