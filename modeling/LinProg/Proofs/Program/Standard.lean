import LinProg.Proofs.Number.Decimal
import LinProg.Proofs.Program.Feasible
import LinProg.Relaxation
import Mathlib.Tactic.Linarith

/-!
# Standard form and program

Every feasible point of the standard form restores to a feasible point of the program, worth the
same up to constant and direction (`feasible_restored`, `value_restored`), and every feasible point
of the program is restored from one of the standard form (`feasible_extended`, `restored_extended`).
-/

namespace LinProg

variable {n : Nat}

/-! ## Rows put together -/

theorem dot_append {a b : Nat} (u : Vector Rat a) (v : Vector Rat b) (z : Fin (a + b) → Rat) :
    dot (u ++ v) z =
      dot u (fun i => z (Fin.castAdd b i)) + dot v (fun i => z (Fin.natAdd a i)) := by
  simp only [dot, Fin.sum_univ_add]
  congr 1
  · refine Finset.sum_congr rfl fun i _ => ?_
    simp [Vector.get_eq_getElem]
  · refine Finset.sum_congr rfl fun i _ => ?_
    simp [Vector.get_eq_getElem]

theorem dot_replicate_zero (a : Nat) (z : Fin a → Rat) : dot (Vector.replicate a 0) z = 0 := by
  simp [dot, Vector.get_eq_getElem]

theorem dot_neg (u : Vector Rat n) (x : Fin n → Rat) : dot (u.map (- ·)) x = -dot u x := by
  simp [dot, Vector.get_eq_getElem]

def Relation.slackTerm : Relation → Rat → Rat
  | .equal, _ => 0
  | .atLeast, s => -s
  | .atMost, s => s

/-- How far apart the two sides of a row are. -/
def Relation.gap : Relation → Rat → Rat → Rat
  | .equal, _, _ => 0
  | .atLeast, a, b => a - b
  | .atMost, a, b => b - a

namespace Relation

theorem holds_of_slackTerm {r : Relation} {a b s : Rat} (hs : 0 ≤ s) (h : a + r.slackTerm s = b) :
    r.Holds a b := by
  cases r <;> simp only [slackTerm] at h <;> simp only [Holds] <;> linarith

theorem slackTerm_gap {r : Relation} {a b : Rat} (h : r.Holds a b) :
    a + r.slackTerm (r.gap a b) = b := by
  cases r <;> simp only [Holds] at h <;> simp only [slackTerm, gap] <;> linarith

theorem gap_nonneg {r : Relation} {a b : Rat} (h : r.Holds a b) : 0 ≤ r.gap a b := by
  cases r <;> simp only [Holds] at h <;> simp only [gap] <;> linarith

theorem isSome_slack? (r : Relation) : (r.slack? : Option Float).isSome = r.isInequality := by
  cases r <;> rfl

theorem slackTerm_of_not_isInequality {r : Relation} (h : r.isInequality = false) (s t : Rat) :
    r.slackTerm s = r.slackTerm t := by
  cases r with
  | equal => rfl
  | atLeast => cases h
  | atMost => cases h

end Relation

namespace LinearProgram

def exact (lp : LinearProgram Float n) : LinearProgram Rat n := lp.map Exact.ofFloat

variable (lp : LinearProgram Float n)

/-- The point of the program that a point of its standard form stands for. -/
def restored (z : Fin lp.nrColumns → Rat) (v : Fin n) : Rat :=
  (lp.restore id (Vector.ofFn z)).get v

/-- The column of a variable, of the negative part of a free one, and of a slack. -/
def column (v : Fin n) : Fin lp.nrColumns := Fin.castAdd _ (Fin.castAdd _ v)

def negativeColumn (k : Fin lp.free.members.length) : Fin lp.nrColumns :=
  Fin.castAdd _ (Fin.natAdd _ k)

def slackColumn (k : Fin lp.nrSlacks) : Fin lp.nrColumns := Fin.natAdd _ k

theorem restored_eq (z : Fin lp.nrColumns → Rat) (v : Fin n) :
    lp.restored z v = z (lp.column v) -
      ∑ k, if lp.free.members.get k = v then z (lp.negativeColumn k) else 0 := by
  have hnodup : lp.free.members.Nodup := lp.free.increasing.imp Fin.ne_of_lt
  simp only [restored, restore, Vector.get_eq_getElem, Vector.getElem_ofFn]
  split
  next h =>
    rw [Finset.sum_eq_single ⟨lp.free.members.idxOf v, h⟩, if_pos]
    · rfl
    · simp
    · intro k _ hk
      refine if_neg fun hv => hk (Fin.ext ?_)
      subst hv
      simp [hnodup.idxOf_getElem]
    · simp
  next h =>
    rw [Finset.sum_eq_zero, sub_zero]
    · rfl
    · intro k _
      refine if_neg fun hv => h ?_
      rw [List.idxOf_lt_length_iff, ← hv]
      exact List.get_mem _ _

/-! ## Rows of the standard form -/

/-- A row with the columns of the negative parts sees the restored point. -/
theorem dot_split (row : Vector Float n) (z : Fin lp.nrColumns → Rat) :
    dot ((lp.split row).map Exact.ofFloat) (fun i => z (Fin.castAdd _ i)) =
      dot (row.map Exact.ofFloat) (lp.restored z) := by
  rw [split, Vector.map_append, dot_append]
  simp only [dot, restored_eq, mul_sub, Finset.sum_sub_distrib]
  rw [sub_eq_add_neg]
  congr 1
  simp only [Finset.mul_sum, mul_ite, mul_zero]
  rw [Finset.sum_comm, ← Finset.sum_neg_distrib]
  refine Finset.sum_congr rfl fun k _ => ?_
  rw [Finset.sum_ite_eq, if_pos (Finset.mem_univ _)]
  simp [Vector.get_eq_getElem, Exact.ofFloat_neg, negativeColumn]

/-- The value of a slack, zero where there is none. -/
def slackAt (z : Fin lp.nrColumns → Rat) (k : Nat) : Rat :=
  if h : k < lp.nrSlacks then z (lp.slackColumn ⟨k, h⟩) else 0

theorem get_setIfInBounds {w : Nat} (k : Nat) (s : Float) (j : Fin w) :
    (((Vector.replicate w 0).setIfInBounds k s).map Exact.ofFloat).get j =
      if k = j then Exact.ofFloat s else 0 := by
  rw [Vector.get_eq_getElem, Vector.getElem_map, Vector.getElem_setIfInBounds,
    Vector.getElem_replicate, apply_ite Exact.ofFloat, Exact.ofFloat_zero]

theorem dot_setIfInBounds {w : Nat} (k : Nat) (s : Float) (y : Fin w → Rat) :
    dot (((Vector.replicate w 0).setIfInBounds k s).map Exact.ofFloat) y =
      if h : k < w then Exact.ofFloat s * y ⟨k, h⟩ else 0 := by
  simp only [dot, get_setIfInBounds, ite_mul, zero_mul]
  split
  next h =>
    rw [Finset.sum_eq_single ⟨k, h⟩, if_pos rfl]
    · exact fun j _ hj => if_neg fun hk => hj (Fin.ext hk.symm)
    · simp
  next h => exact Finset.sum_eq_zero fun j _ => if_neg fun hk : k = j.val => h (hk ▸ j.isLt)

theorem dot_slackPart (k : Nat) (relation : Relation) (z : Fin lp.nrColumns → Rat) :
    dot ((slackPart lp.nrSlacks k (relation.slack? : Option Float)).map Exact.ofFloat)
        (fun i => z (Fin.natAdd _ i)) =
      relation.slackTerm (lp.slackAt z k) := by
  cases relation with
  | equal =>
    simp only [Relation.slack?, slackPart, Vector.map_replicate, Exact.ofFloat_zero]
    exact dot_replicate_zero _ _
  | atLeast =>
    simp only [Relation.slack?, slackPart, Relation.slackTerm, slackAt, dot_setIfInBounds,
      Exact.ofFloat_neg, Exact.ofFloat_one]
    split
    · exact neg_one_mul _
    · exact neg_zero.symm
  | atMost =>
    simp only [Relation.slack?, slackPart, Relation.slackTerm, slackAt, dot_setIfInBounds,
      Exact.ofFloat_one]
    split
    · exact one_mul _
    · rfl

/-- An equation of the standard form says that the slack makes up the difference. -/
theorem equation_holds_iff (c : Constraint Float n) (k : Nat) (z : Fin lp.nrColumns → Rat) :
    Equation.Holds ⟨(lp.split c.coefficients ++
        slackPart lp.nrSlacks k (c.relation.slack? : Option Float)).map Exact.ofFloat,
      Exact.ofFloat c.rhs⟩ z ↔
      dot (c.map Exact.ofFloat).coefficients (lp.restored z) +
          c.relation.slackTerm (lp.slackAt z k) =
        (c.map Exact.ofFloat).rhs := by
  unfold Equation.Holds
  rw [Vector.map_append, dot_append, lp.dot_split, lp.dot_slackPart]
  rfl

/-- The slacks that rows need at a point, in the order of their columns. -/
def slacksAt (x : Fin n → Rat) (constraints : List (Constraint Rat n)) : List Rat :=
  (constraints.filter (·.relation.isInequality)).map fun c =>
    c.relation.gap (dot c.coefficients x) c.rhs

/-- The rows hold where the equations do, if the slacks are nonnegative. -/
theorem holds_of_equationsFrom {z : Fin lp.nrColumns → Rat} (hz : ∀ k, 0 ≤ lp.slackAt z k)
    (constraints : List (Constraint Float n)) (k : Nat)
    (h : ∀ e ∈ lp.equationsFrom k constraints,
      Equation.Holds ⟨e.coefficients.map Exact.ofFloat, Exact.ofFloat e.rhs⟩ z) :
    ∀ c ∈ constraints, (c.map Exact.ofFloat).Holds (lp.restored z) := by
  induction constraints generalizing k with
  | nil => simp
  | cons c rest ih =>
    rw [equationsFrom, List.forall_mem_cons] at h
    rw [List.forall_mem_cons]
    refine ⟨?_, ih _ h.2⟩
    exact Relation.holds_of_slackTerm (hz k) ((lp.equation_holds_iff c k z).1 h.1)

/-- The equations hold where the rows do, if the slacks are those that the rows need. -/
theorem equationsFrom_of_holds {z : Fin lp.nrColumns → Rat}
    (constraints : List (Constraint Float n)) (k : Nat)
    (hz : ∀ i, lp.slackAt z (k + i) =
      (slacksAt (lp.restored z) (constraints.map (·.map Exact.ofFloat))).getD i 0)
    (h : ∀ c ∈ constraints, (c.map Exact.ofFloat).Holds (lp.restored z)) :
    ∀ e ∈ lp.equationsFrom k constraints,
      Equation.Holds ⟨e.coefficients.map Exact.ofFloat, Exact.ofFloat e.rhs⟩ z := by
  induction constraints generalizing k with
  | nil => simp [equationsFrom]
  | cons c rest ih =>
    rw [List.forall_mem_cons] at h
    rw [equationsFrom, List.forall_mem_cons]
    refine ⟨(lp.equation_holds_iff c k z).2 ?_, ih _ ?_ h.2⟩
    · have hrow := Relation.slackTerm_gap h.1
      cases hc : c.relation.isInequality with
      | true =>
        have h0 := hz 0
        simp only [slacksAt, List.map_cons, List.filter_cons, Constraint.map, hc, if_true,
          List.getD_cons_zero, Nat.add_zero] at h0
        rw [h0]
        exact hrow
      | false =>
        rw [Relation.slackTerm_of_not_isInequality hc _ (c.relation.gap _ _)]
        exact hrow
    · intro i
      simp only [Relation.isSome_slack?]
      cases hc : c.relation.isInequality with
      | true =>
        have hi := hz (i + 1)
        simp only [slacksAt, List.map_cons, List.filter_cons, Constraint.map, hc, if_true,
          List.getD_cons_succ] at hi
        rw [if_pos rfl, Nat.add_assoc, Nat.add_comm 1 i]
        exact hi
      | false =>
        have hi := hz i
        simp only [slacksAt, List.map_cons, List.filter_cons, Constraint.map, hc,
          Bool.false_eq_true, if_false] at hi
        rw [if_neg Bool.false_ne_true]
        exact hi

/-! ## From one program to the other -/

/-- A feasible point of the standard form restores to a feasible point. -/
theorem feasible_restored {z : Fin lp.nrColumns → Rat}
    (hz : (lp.standardValues : StandardForm Rat _).Feasible z) :
    lp.exact.Feasible (lp.restored z) := by
  have hslack (k : Nat) : 0 ≤ lp.slackAt z k := by
    unfold slackAt
    split
    · exact hz.nonneg _
    · exact le_rfl
  refine ⟨?_, fun v hv => ?_⟩
  · intro c' hc'
    obtain ⟨c, hc, rfl⟩ := List.mem_map.1 hc'
    refine lp.holds_of_equationsFrom hslack lp.constraints 0 (fun e he => ?_) c hc
    exact hz.rows _ (List.mem_map_of_mem he)
  · rw [restored_eq, Finset.sum_eq_zero, sub_zero]
    · exact hz.nonneg _
    · exact fun k _ => if_neg fun hk : lp.free.members.get k = v => hv (hk ▸ List.get_mem _ _)

/-- The point of the standard form that a point of the program comes from. -/
def extended (x : Fin n → Rat) : Fin lp.nrColumns → Rat :=
  Fin.append
    (Fin.append (fun v => if v ∈ lp.free.members then max (x v) 0 else x v)
      fun k => max (-x (lp.free.members.get k)) 0)
    fun k => (slacksAt x lp.exact.constraints).getD k 0

theorem restored_extended (x : Fin n → Rat) : lp.restored (lp.extended x) = x := by
  have hnodup : lp.free.members.Nodup := lp.free.increasing.imp Fin.ne_of_lt
  funext v
  rw [restored_eq]
  simp only [extended, column, negativeColumn, Fin.append_left, Fin.append_right]
  split
  next hv =>
    obtain ⟨k, rfl⟩ := List.get_of_mem hv
    rw [Finset.sum_eq_single k, if_pos rfl]
    · rcases le_total (x (lp.free.members.get k)) 0 with h | h
      · rw [max_eq_right h, max_eq_left (by linarith)]
        ring
      · rw [max_eq_left h, max_eq_right (by linarith)]
        ring
    · exact fun j _ hj => if_neg fun e => hj (hnodup.get_inj_iff.1 e)
    · simp
  next hv =>
    rw [Finset.sum_eq_zero, sub_zero]
    exact fun k _ => if_neg fun hk : lp.free.members.get k = v => hv (hk ▸ List.get_mem _ _)

theorem length_slacksAt (x : Fin n → Rat) :
    (slacksAt x lp.exact.constraints).length = lp.nrSlacks := by
  rw [slacksAt, List.length_map, ← List.countP_eq_length_filter, nrSlacks, exact, map,
    List.countP_map]
  rfl

theorem feasible_extended {x : Fin n → Rat} (hx : lp.exact.Feasible x) :
    (lp.standardValues : StandardForm Rat _).Feasible (lp.extended x) := by
  have hslack (k : Nat) :
      lp.slackAt (lp.extended x) k = (slacksAt x lp.exact.constraints).getD k 0 := by
    unfold slackAt
    split
    next h => simp only [extended, slackColumn, Fin.append_right]
    next h =>
      rw [List.getD_eq_getElem?_getD, List.getElem?_eq_none (by rw [length_slacksAt]; omega)]
      rfl
  have hnonneg (s : Rat) (hs : s ∈ slacksAt x lp.exact.constraints) : 0 ≤ s := by
    obtain ⟨c, hc, rfl⟩ := List.mem_map.1 hs
    exact Relation.gap_nonneg (hx.rows c (List.mem_filter.1 hc).1)
  refine ⟨?_, fun j => ?_⟩
  · intro e' he'
    obtain ⟨e, he, rfl⟩ := List.mem_map.1 he'
    refine lp.equationsFrom_of_holds lp.constraints 0 (fun i => ?_) (fun c hc => ?_) e he
    · rw [Nat.zero_add, hslack, restored_extended]
      rfl
    · rw [restored_extended]
      exact hx.rows _ (List.mem_map_of_mem hc)
  · refine Fin.addCases (fun j => ?_) (fun k => ?_) j
    · refine Fin.addCases (fun v => ?_) (fun k => ?_) j
      · simp only [extended, Fin.append_left]
        split
        next => exact le_max_right _ _
        next hv => exact hx.signs v hv
      · simp only [extended, Fin.append_left, Fin.append_right]
        exact le_max_right _ _
    · simp only [extended, Fin.append_right, List.getD_eq_getElem?_getD]
      cases hk : (slacksAt x lp.exact.constraints)[k.val]? with
      | none => exact le_rfl
      | some s => exact hnonneg s (List.mem_of_getElem? hk)

theorem value_restored (z : Fin lp.nrColumns → Rat) :
    lp.exact.value (lp.restored z) =
      match lp.objective with
      | .maximize => Exact.ofFloat lp.constant + (lp.standardValues : StandardForm Rat _).value z
      | .minimize =>
        Exact.ofFloat lp.constant - (lp.standardValues : StandardForm Rat _).value z := by
  have hcost : (lp.standardValues : StandardForm Rat _).value z =
      dot ((match lp.objective with
        | .maximize => lp.cost
        | .minimize => lp.cost.map (- ·)).map Exact.ofFloat) (lp.restored z) := by
    show dot (lp.standardCost.map Exact.ofFloat) z = _
    have hslacks : dot ((Vector.replicate lp.nrSlacks (0 : Float)).map Exact.ofFloat)
        (fun i => z (Fin.natAdd _ i)) = 0 := by
      rw [Vector.map_replicate, Exact.ofFloat_zero, dot_replicate_zero]
    rw [standardCost, Vector.map_append, dot_append, hslacks, add_zero]
    exact lp.dot_split _ z
  rw [hcost]
  show Exact.ofFloat lp.constant + dot (lp.cost.map Exact.ofFloat) (lp.restored z) = _
  cases lp.objective with
  | maximize => rfl
  | minimize =>
    have hneg : (lp.cost.map (- ·)).map Exact.ofFloat = (lp.cost.map Exact.ofFloat).map (- ·) := by
      simp only [Vector.map_map]
      exact congrArg (lp.cost.map ·) (funext Exact.ofFloat_neg)
    dsimp only
    rw [hneg, dot_neg, sub_neg_eq_add]

/-- The value of a program at a point that its standard form values at `-t`. -/
theorem value_restored_of_eq_neg {z : Fin lp.nrColumns → Rat} {t : Rat}
    (ht : (lp.standardValues : StandardForm Rat _).value z = -t) :
    lp.exact.value (lp.restored z) = match lp.objective with
      | .maximize => Exact.ofFloat lp.constant - t
      | .minimize => Exact.ofFloat lp.constant + t := by
  rw [value_restored, ht]
  cases lp.objective with
  | maximize => exact (sub_eq_add_neg _ _).symm
  | minimize => exact sub_neg_eq_add _ _

/-- A program has an optimum where its standard form has one. -/
theorem optimal_restored {z : Fin lp.nrColumns → Rat}
    (hz : (lp.standardValues : StandardForm Rat _).Optimal z) :
    lp.exact.Optimal (lp.restored z) := by
  refine ⟨lp.feasible_restored hz.feasible, fun y hy => ?_⟩
  have hbest := hz.best _ (lp.feasible_extended hy)
  have hvalue := lp.value_restored (lp.extended y)
  rw [restored_extended] at hvalue
  rw [hvalue, value_restored]
  show lp.objective.NoBetter _ _
  cases lp.objective with
  | maximize => exact Objective.noBetter_maximize.2 (by linarith)
  | minimize => exact Objective.noBetter_minimize.2 (by linarith)

end LinearProgram

end LinProg
