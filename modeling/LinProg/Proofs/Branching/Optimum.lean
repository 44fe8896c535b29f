import LinProg.Proofs.Branching.Node

/-!
# Optima of nodes

A relaxation is answered correctly if the answer is an exact optimum, or says truly that there is
none.  With the eliminated variables at their values a point of a node's problem is a point of the
node and just as good (`Reached.contains_point`, `Reached.value_point`); if it is integral it is
admissible (`Reached.admissible_point`).
-/

namespace LinProg

open Denoting

variable {α : Type} {n : Nat}

/-! ## Eliminated variables at their values -/

theorem getElem?_set_fixings_of_notMem {fixings : List (Nat × α)} {index : Nat}
    (h : ∀ a, (index, a) ∉ fixings) (x : List α) :
    (fixings.foldl (fun x (i, a) => x.set i a) x)[index]? = x[index]? := by
  induction fixings generalizing x with
  | nil => rfl
  | cons fixing rest ih =>
    obtain ⟨i, a⟩ := fixing
    have hne : i ≠ index := by
      rintro rfl
      exact h a List.mem_cons_self
    rw [List.foldl_cons, ih fun b hb => h b (List.mem_cons_of_mem _ hb),
      List.getElem?_set_ne hne]

theorem getElem?_set_fixings_of_mem {fixings : List (Nat × α)}
    (hnodup : (fixings.map Prod.fst).Nodup) {index : Nat} {value : α}
    (h : (index, value) ∈ fixings) {x : List α} (hindex : index < x.length) :
    (fixings.foldl (fun x (i, a) => x.set i a) x)[index]? = some value := by
  induction fixings generalizing x with
  | nil => cases h
  | cons fixing rest ih =>
    rw [List.map_cons, List.nodup_cons] at hnodup
    rw [List.foldl_cons]
    rcases List.mem_cons.1 h with rfl | h
    · have hrest : ∀ a, (index, a) ∉ rest := fun a ha =>
        hnodup.1 (List.mem_map.2 ⟨_, ha, rfl⟩)
      rw [getElem?_set_fixings_of_notMem hrest, List.getElem?_set_self hindex]
    · exact ih hnodup.2 h (by rwa [List.length_set])

theorem MixedIntegerProgram.isIntegralOn?_order_ne_none [Integral α] {p : MixedIntegerProgram α n}
    {relax : LinearProgram α n → Solution α × List Message} (node : Node α n)
    {solution : Solution α} (hlength : solution.x.length = n) :
    Search.isIntegralOn? (Search.withFixings node solution).x (p.search relax).order ≠ none := by
  apply Search.isIntegralOn?_ne_none
  intro index hindex
  obtain ⟨v, -, rfl⟩ := mem_order.1 hindex
  rw [Search.length_withFixings, hlength]
  exact v.isLt

variable [Integral α] [Denoting α]

/-! ## Right answers -/

structure Solution.IsPoint (solution : Solution α) (lp : LinearProgram α n) : Prop where
  length_eq : solution.x.length = n
  isNumber : ∀ a ∈ solution.x, IsNumber a
  feasible : lp.read.Feasible solution.point
  value : ∃ a, solution.objectiveValue = some a ∧ IsNumber a ∧
    toRat a = lp.read.value solution.point

instance [DecidablePred (IsNumber : α → Prop)] (solution : Solution α) (lp : LinearProgram α n) :
    Decidable (solution.IsPoint lp) :=
  decidable_of_iff
    (solution.x.length = n ∧ (∀ a ∈ solution.x, IsNumber a) ∧ lp.read.Feasible solution.point ∧
      ∃ a, solution.objectiveValue = some a ∧ IsNumber a ∧
        toRat a = lp.read.value solution.point)
    ⟨fun h => ⟨h.1, h.2.1, h.2.2.1, h.2.2.2⟩,
      fun h => ⟨h.length_eq, h.isNumber, h.feasible, h.value⟩⟩

/-- The solution is an optimum of the program with its value, both without rounding. -/
structure Solution.IsOptimum (solution : Solution α) (lp : LinearProgram α n) : Prop where
  length_eq : solution.x.length = n
  isNumber : ∀ a ∈ solution.x, IsNumber a
  optimal : lp.read.Optimal solution.point
  value : ∃ a, solution.objectiveValue = some a ∧ IsNumber a ∧
    toRat a = lp.read.value solution.point

theorem Solution.IsOptimum.isPoint {solution : Solution α} {lp : LinearProgram α n}
    (h : solution.IsOptimum lp) : solution.IsPoint lp :=
  ⟨h.length_eq, h.isNumber, h.optimal.feasible, h.value⟩

/-- The solution says what is true of the program: which point is an optimum, or that there is no
point.  It never says that the program is unbounded. -/
structure Solution.Answers (solution : Solution α) (lp : LinearProgram α n) : Prop where
  state : solution.state = .solved ∨ solution.state = .noSolution
  solved : solution.state = .solved → solution.IsOptimum lp
  noSolution : solution.state = .noSolution → ∀ z, ¬lp.read.Feasible z

namespace MixedIntegerProgram.Reached

open Search

variable {p : MixedIntegerProgram α n} {node : Node α n} {lp : LinearProgram α n}
  {solution : Solution α}

theorem getElem?_withFixings (h : p.Reached node lp) (hlength : solution.x.length = n) {v : Fin n}
    {value : α} (hv : (v.val, value) ∈ node.fixings) :
    (withFixings node solution).x[v.val]? = some value :=
  getElem?_set_fixings_of_mem h.nodup hv (hlength ▸ v.isLt)

theorem not_misplaced (h : p.Reached node lp) (hlength : solution.x.length = n) :
    ¬∃ fixing ∈ node.fixings, (withFixings node solution).x.length ≤ fixing.1 := by
  rintro ⟨fixing, hfixing, hle⟩
  obtain ⟨-, v, hv, -⟩ := h.fixed _ _ hfixing
  rw [length_withFixings, hlength, ← hv] at hle
  exact absurd v.isLt (Nat.not_lt.2 hle)

theorem isNumber_withFixings (h : p.Reached node lp) (hpoint : solution.IsPoint lp) {v : Fin n}
    {a : α} (ha : (withFixings node solution).x[v.val]? = some a) : IsNumber a := by
  by_cases hv : ∃ value, (v.val, value) ∈ node.fixings
  · obtain ⟨value, hv⟩ := hv
    rw [h.getElem?_withFixings hpoint.length_eq hv] at ha
    cases ha
    rcases (h.fixed _ _ hv).1 with rfl | rfl
    · exact isNumber_zero
    · exact isNumber_one
  · rw [withFixings, getElem?_set_fixings_of_notMem (not_exists.1 hv)] at ha
    exact hpoint.isNumber a (List.mem_of_getElem? ha)

theorem agrees_point (h : p.Reached node lp) (hlength : solution.x.length = n) :
    node.Agrees (withFixings node solution).point := by
  intro v value hv
  rw [Solution.point, List.getD_eq_getElem?_getD, h.getElem?_withFixings hlength hv,
    Option.getD_some]

/-- Only eliminated variables change, which matter to nothing. -/
theorem point_withFixings (h : p.Reached node lp) (hlength : solution.x.length = n) (v : Fin n) :
    (withFixings node solution).point v = solution.point v ∨
      lp.read.Ignores v ∧ 0 ≤ (withFixings node solution).point v := by
  by_cases hv : ∃ value, (v.val, value) ∈ node.fixings
  · obtain ⟨value, hv⟩ := hv
    obtain ⟨hvalue, w, hw, hignores, -⟩ := h.fixed _ _ hv
    obtain rfl := Fin.ext hw
    refine .inr ⟨hignores, ?_⟩
    rw [h.agrees_point hlength w value hv]
    rcases hvalue with rfl | rfl
    · exact toRat_zero.ge
    · rw [toRat_one]
      exact zero_le_one
  · left
    rw [Solution.point, Solution.point, List.getD_eq_getElem?_getD, List.getD_eq_getElem?_getD,
      withFixings, getElem?_set_fixings_of_notMem (not_exists.1 hv)]

theorem contains_point (h : p.Reached node lp) (hpoint : solution.IsPoint lp) :
    node.Contains lp (withFixings node solution).point :=
  ⟨h.agrees_point hpoint.length_eq,
    hpoint.feasible.congr (h.point_withFixings hpoint.length_eq)⟩

theorem value_point (h : p.Reached node lp) (hpoint : solution.IsPoint lp) :
    ∃ a, solution.objectiveValue = some a ∧ IsNumber a ∧
      toRat a = p.relaxation.read.value (withFixings node solution).point := by
  obtain ⟨a, ha, hnumber, hvalue⟩ := hpoint.value
  refine ⟨a, ha, hnumber, ?_⟩
  rw [hvalue, ← h.value _ (h.agrees_point hpoint.length_eq),
    LinearProgram.value_congr (h.point_withFixings hpoint.length_eq)]

theorem noBetter_of_contains (h : p.Reached node lp) (hopt : solution.IsOptimum lp)
    {z : Fin n → Rat} (hz : node.Contains lp z) :
    ∃ a, solution.objectiveValue = some a ∧ IsNumber a ∧
      p.relaxation.objective.NoBetter (p.relaxation.read.value z) (toRat a) := by
  obtain ⟨a, ha, hnumber, hvalue⟩ := hopt.value
  refine ⟨a, ha, hnumber, ?_⟩
  rw [hvalue, ← h.value z hz.agrees, ← h.objective]
  exact hopt.optimal.best z hz.feasible

/-! ## Integral points -/

section Integral

variable {relax : LinearProgram α n → Solution α × List Message} (h : p.Reached node lp)
  (hpoint : solution.IsPoint lp)
  (hx : isIntegralOn? (withFixings node solution).x (p.search relax).order = some true)

include h hpoint hx

theorem integral_point {v : Fin n} (hv : v ∈ p.branchingOrder) :
    ∃ k : Int, (withFixings node solution).point v = k := by
  obtain ⟨a, ha, hint⟩ := isIntegralOn?_eq_true.1 hx v.val (mem_order.2 ⟨v, hv, rfl⟩)
  rw [Solution.point, List.getD_eq_getElem?_getD, ha, Option.getD_some]
  exact (isIntegral_iff (h.isNumber_withFixings hpoint ha)).1 hint

/-- An integer that is one at most is zero or one, unless it is negative. -/
theorem binary_point {v : Fin n} (hv : v ∈ p.binaries.members) :
    (withFixings node solution).point v = 0 ∨ (withFixings node solution).point v = 1 ∨
      ∃ k : Int, k < 0 ∧ (withFixings node solution).point v = k := by
  obtain ⟨k, hk⟩ := h.integral_point hpoint hx (mem_branchingOrder.2 (.inl hv))
  have hhigh : (k : Rat) ≤ 1 := hk ▸ (feasible_root.1 (h.root _ (h.contains_point hpoint))).2 v hv
  have hhigh : k ≤ 1 := by exact_mod_cast hhigh
  rw [hk]
  obtain rfl | rfl | hlow : k = 0 ∨ k = 1 ∨ k < 0 := by omega
  · exact .inl Int.cast_zero
  · exact .inr (.inl Int.cast_one)
  · exact .inr (.inr ⟨k, hlow, rfl⟩)

theorem admissible_point (hfree : ∀ v ∈ p.binaries.members, v ∉ p.relaxation.free.members) :
    p.Admissible (withFixings node solution).point := by
  have hroot := feasible_root.1 (h.root _ (h.contains_point hpoint))
  refine ⟨hroot.1, fun v hv => h.integral_point hpoint hx (mem_branchingOrder.2 (.inr hv)),
    fun v hv => ?_⟩
  rcases h.binary_point hpoint hx hv with hzero | hone | ⟨k, hk, hpointv⟩
  · exact .inl hzero
  · exact .inr hone
  · have hnonneg : (0 : Rat) ≤ k := hpointv ▸ hroot.1.signs v (hfree v hv)
    have : 0 ≤ k := by exact_mod_cast hnonneg
    omega

end Integral

/-- Once all levels are passed, binary variables are integral. -/
theorem isIntegralOn?_of_binary (h : p.Reached node lp) (hlength : solution.x.length = n)
    (hbinary : ∀ v ∈ p.integers.members, v ∈ p.binaries.members)
    {relax : LinearProgram α n → Solution α × List Message}
    (hlevel : (p.search relax).order.length ≤ node.level) :
    isIntegralOn? (withFixings node solution).x (p.search relax).order = some true := by
  have hfilter : p.integers.members.filter (fun v => !p.binaries.members.contains v) = [] := by
    rw [List.filter_eq_nil_iff]
    intro v hv
    simp [hbinary v hv]
  have horder : p.branchingOrder = p.binaries.members := by
    rw [branchingOrder, hfilter, List.append_nil]
  refine isIntegralOn?_eq_true.2 fun index hindex => ?_
  obtain ⟨v, hv, rfl⟩ := mem_order.1 hindex
  obtain ⟨i, hi⟩ := List.getElem?_of_mem hv
  have hlt : i < p.branchingOrder.length := (List.getElem?_eq_some_iff.1 hi).1
  have hpassed : i < node.level := by
    have : (p.search relax).order.length = p.branchingOrder.length := List.length_map _
    omega
  obtain ⟨value, hvalue⟩ := h.complete i hpassed (horder ▸ hlt) v hi
  refine ⟨value, h.getElem?_withFixings hlength hvalue, ?_⟩
  rcases (h.fixed _ _ hvalue).1 with rfl | rfl
  · exact (isIntegral_iff isNumber_zero).2 ⟨0, by rw [toRat_zero, Int.cast_zero]⟩
  · exact (isIntegral_iff isNumber_one).2 ⟨1, by rw [toRat_one, Int.cast_one]⟩

end MixedIntegerProgram.Reached

end LinProg
