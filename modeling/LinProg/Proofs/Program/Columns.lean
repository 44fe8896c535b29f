import LinProg.Proofs.Program.Standard

/-!
# Standard form, column by column

Each constraint becomes one equation, in the same place.  The column of a variable repeats its
coefficients, the column of a negative part repeats them with the other sign, and the column of a
slack has a value in the row of its inequality only.
-/

namespace LinProg

variable {n : Nat}

theorem Relation.slackTerm_zero (r : Relation) : r.slackTerm 0 = 0 := by
  cases r
  · rfl
  · exact neg_zero
  · rfl

namespace LinearProgram

variable (lp : LinearProgram Float n)

/-! ## Values of a row -/

def exactRow (row : Vector Float n) (slacks : Vector Float lp.nrSlacks) : Vector Rat lp.nrColumns :=
  (lp.split row ++ slacks).map Exact.ofFloat

variable (row : Vector Float n) (slacks : Vector Float lp.nrSlacks)

theorem get_exactRow_column (v : Fin n) :
    (lp.exactRow row slacks).get (lp.column v) = (row.map Exact.ofFloat).get v := by
  simp [exactRow, Vector.get_eq_getElem, split, column]

theorem get_exactRow_negativeColumn (k : Fin lp.free.members.length) :
    (lp.exactRow row slacks).get (lp.negativeColumn k) =
      -(row.map Exact.ofFloat).get (lp.free.members.get k) := by
  simp [exactRow, Vector.get_eq_getElem, split, negativeColumn, Exact.ofFloat_neg]

theorem get_exactRow_slackColumn (k : Fin lp.nrSlacks) :
    (lp.exactRow row slacks).get (lp.slackColumn k) = (slacks.map Exact.ofFloat).get k := by
  simp [exactRow, Vector.get_eq_getElem, slackColumn]

theorem get_slackPart {w k : Nat} (relation : Relation) (j : Fin w) :
    ((slackPart w k (relation.slack? : Option Float)).map Exact.ofFloat).get j =
      if k = j then relation.slackTerm 1 else 0 := by
  cases relation with
  | equal => simp [Relation.slack?, slackPart, Relation.slackTerm, Vector.get_eq_getElem,
      Exact.ofFloat_zero]
  | atLeast =>
    exact (get_setIfInBounds k (-1) j).trans (by rw [Exact.ofFloat_neg, Exact.ofFloat_one]; rfl)
  | atMost => exact (get_setIfInBounds k 1 j).trans (by rw [Exact.ofFloat_one]; rfl)

/-! ## Costs -/

/-- What a unit of each variable is worth, seen from a maximization. -/
def profit (lp : LinearProgram Rat n) (v : Fin n) : Rat :=
  match lp.objective with
  | .maximize => lp.cost.get v
  | .minimize => -lp.cost.get v

theorem exists_exactRow_eq_cost : ∃ row slacks,
    (lp.standardValues : StandardForm Rat _).cost = lp.exactRow row slacks ∧
      (∀ v, (row.map Exact.ofFloat).get v = lp.exact.profit v) ∧
      ∀ k, (slacks.map Exact.ofFloat).get k = 0 := by
  refine ⟨_, _, rfl, fun v => ?_, fun k => ?_⟩
  · show _ = match lp.objective with
      | .maximize => (lp.cost.map Exact.ofFloat).get v
      | .minimize => -(lp.cost.map Exact.ofFloat).get v
    cases lp.objective with
    | maximize => rfl
    | minimize => simp [Vector.get_eq_getElem, Exact.ofFloat_neg]
  · simp [Vector.get_eq_getElem, Exact.ofFloat_zero]

/-! ## Equations -/

/-- The slack column of an inequality, or of the next one. -/
def slackIndex (i : Nat) : Nat := (lp.constraints.take i).countP (·.relation.isInequality)

theorem slackIndex_lt_of_lt {i j : Nat} (hi : i < lp.constraints.length) (hij : i < j)
    (h : lp.constraints[i].relation.isInequality = true) : lp.slackIndex i < lp.slackIndex j := by
  have hsucc : lp.slackIndex (i + 1) = lp.slackIndex i + 1 := by
    rw [slackIndex, List.take_succ_eq_append_getElem hi, List.countP_append]
    simp [slackIndex, h]
  calc lp.slackIndex i < lp.slackIndex (i + 1) := by omega
    _ ≤ lp.slackIndex j := List.Sublist.countP_le (List.take_sublist_take_left hij)

theorem slackIndex_lt_nrSlacks {i : Nat} (hi : i < lp.constraints.length)
    (h : lp.constraints[i].relation.isInequality = true) : lp.slackIndex i < lp.nrSlacks := by
  have := lp.slackIndex_lt_of_lt hi hi h
  rwa [slackIndex, slackIndex, List.take_length] at this

theorem getElem?_equationsFrom (constraints : List (Constraint Float n)) (k i : Nat) :
    (lp.equationsFrom k constraints)[i]? = constraints[i]?.map fun c =>
      ⟨lp.split c.coefficients ++ slackPart lp.nrSlacks
        (k + (constraints.take i).countP (·.relation.isInequality))
        (c.relation.slack? : Option Float), c.rhs⟩ := by
  induction constraints generalizing k i with
  | nil => rfl
  | cons c rest ih =>
    cases i with
    | zero => rfl
    | succ i =>
      rw [equationsFrom, List.getElem?_cons_succ, ih, List.getElem?_cons_succ, List.take_succ_cons,
        List.countP_cons, Relation.isSome_slack?]
      cases c.relation.isInequality with
      | true => simp only [if_true, Nat.add_right_comm k 1, Nat.add_assoc]
      | false => simp only [Bool.false_eq_true, if_false, Nat.add_zero]

theorem length_equationsFrom (constraints : List (Constraint Float n)) (k : Nat) :
    (lp.equationsFrom k constraints).length = constraints.length := by
  induction constraints generalizing k with
  | nil => rfl
  | cons c rest ih => exact congrArg (· + 1) (ih _)

theorem length_equations :
    (lp.standardValues : StandardForm Rat _).equations.length = lp.constraints.length :=
  (List.length_map _).trans (lp.length_equationsFrom lp.constraints 0)

theorem length_exact : lp.exact.constraints.length = lp.constraints.length := List.length_map _

theorem getElem_exact (i : Fin lp.exact.constraints.length) :
    lp.exact.constraints[i] =
      lp.constraints[i.cast lp.length_exact].map Exact.ofFloat :=
  List.getElem_map _

theorem getElem_equations (i : Fin (lp.standardValues : StandardForm Rat _).equations.length) :
    (lp.standardValues : StandardForm Rat _).equations[i] =
      ⟨lp.exactRow lp.constraints[i.cast lp.length_equations].coefficients
        (slackPart lp.nrSlacks (lp.slackIndex i)
          (lp.constraints[i.cast lp.length_equations].relation.slack? : Option Float)),
        Exact.ofFloat lp.constraints[i.cast lp.length_equations].rhs⟩ := by
  have hi : i.val < lp.constraints.length := lp.length_equations ▸ i.isLt
  have hget := lp.getElem?_equationsFrom lp.constraints 0 i
  rw [Nat.zero_add, List.getElem?_eq_getElem hi] at hget
  obtain ⟨hlt, heq⟩ := List.getElem?_eq_some_iff.1 hget
  exact (List.getElem_map _).trans (congrArg (fun e : Equation Float _ =>
    (⟨e.coefficients.map Exact.ofFloat, Exact.ofFloat e.rhs⟩ : Equation Rat _)) heq)

/-- A combination of the equations, seen from the program. -/
theorem sum_equations (y : Nat → Rat) {f : Equation Rat lp.nrColumns → Rat}
    {g : Constraint Rat n → Rat}
    (h : ∀ (c : Constraint Float n) (slacks : Vector Float lp.nrSlacks),
      f ⟨lp.exactRow c.coefficients slacks, Exact.ofFloat c.rhs⟩ = g (c.map Exact.ofFloat)) :
    ∑ i : Fin (lp.standardValues : StandardForm Rat _).equations.length,
        y i * f (lp.standardValues : StandardForm Rat _).equations[i] =
      ∑ i : Fin lp.exact.constraints.length, y i * g lp.exact.constraints[i] := by
  refine Fintype.sum_equiv (finCongr (lp.length_equations.trans lp.length_exact.symm)) _ _
    fun i => ?_
  rw [getElem_equations, h, getElem_exact]
  rfl

/-- A combination of the equations in the column of a slack is the share of its row. -/
theorem sum_slackColumn (y : Nat → Rat) {i : Fin lp.constraints.length}
    (hi : lp.constraints[i].relation.isInequality = true) :
    ∑ j : Fin (lp.standardValues : StandardForm Rat _).equations.length,
        y j * (lp.standardValues : StandardForm Rat _).equations[j].coefficients.get
          (lp.slackColumn ⟨lp.slackIndex i, lp.slackIndex_lt_nrSlacks i.isLt hi⟩) =
      y i * lp.constraints[i].relation.slackTerm 1 := by
  have hget (j : Fin (lp.standardValues : StandardForm Rat _).equations.length) :
      (lp.standardValues : StandardForm Rat _).equations[j].coefficients.get
          (lp.slackColumn ⟨lp.slackIndex i, lp.slackIndex_lt_nrSlacks i.isLt hi⟩) =
        if lp.slackIndex j = lp.slackIndex i then
          lp.constraints[j.cast lp.length_equations].relation.slackTerm 1
        else 0 := by
    rw [getElem_equations, get_exactRow_slackColumn, get_slackPart]
  rw [Finset.sum_eq_single (i.cast lp.length_equations.symm)]
  · rw [hget]
    exact congrArg (y i * ·) (if_pos rfl)
  · intro j _ hj
    have hji : j.val ≠ i.val := fun h => hj (Fin.ext h)
    rw [hget]
    split
    next heq =>
      -- two inequalities don't share a slack
      have hother : lp.constraints[j.cast lp.length_equations].relation.isInequality = false := by
        by_contra hother
        rw [Bool.not_eq_false] at hother
        rcases Nat.lt_or_gt_of_ne hji with hlt | hgt
        · exact (lp.slackIndex_lt_of_lt _ hlt hother).ne heq
        · exact (lp.slackIndex_lt_of_lt i.isLt hgt hi).ne' heq
      rw [Relation.slackTerm_of_not_isInequality hother 1 0, Relation.slackTerm_zero, mul_zero]
    next => exact mul_zero _
  · simp

end LinearProgram

end LinProg
