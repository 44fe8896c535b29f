import LinProg.Program.Description
import LinProg.Proofs.Number.Decimal
import LinProg.Proofs.Number.Shortest
import LinProg.Proofs.Program.Columns
import LinProg.Proofs.Safety.Fits

/-!
# The numbers of accepted programs

A program that was built from a description has finite numbers only, and so has its standard form.
Finite numbers can be converted, and a zero is one before and after that, so the slack variables
found among doubles are those of the converted program (`slackColumns_eq`).
-/

namespace LinProg

/-! ## Descriptions -/

/-- What a computation that succeeds has gone through. -/
theorem Inconsistency.exists_of_bind {β γ : Type} {x : Except Inconsistency β}
    {f : β → Except Inconsistency γ} {c : γ} (h : x >>= f = .ok c) :
    ∃ b, x = .ok b ∧ f b = .ok c := by
  cases x with
  | error e => cases h
  | ok b => exact ⟨b, rfl, h⟩

theorem Inconsistency.isFinite_of_checkFinite {part : Part} {values : List Float}
    (h : checkFinite part values = .ok ()) : ∀ x ∈ values, x.isFinite = true := by
  unfold checkFinite at h
  split at h
  next => cases h
  next hnone => simpa using List.find?_eq_none.1 hnone

theorem Inconsistency.rows_of_checkRows {n : Nat} (row : Nat) (matrix : List (List Float))
    (rows : List (Vector Float n)) (h : checkRows n row matrix = .ok rows) :
    rows.map Vector.toList = matrix := by
  induction matrix generalizing row rows with
  | nil =>
    cases h
    rfl
  | cons values rest ih =>
    unfold checkRows at h
    split at h
    next hlength =>
      cases hrest : checkRows n (row + 1) rest with
      | error e =>
        rw [hrest] at h
        cases h
      | ok rows' =>
        rw [hrest] at h
        cases h
        simp [ih _ _ hrest]
    next => cases h

namespace LinearProgram

structure IsFinite {n : Nat} (lp : LinearProgram Float n) : Prop where
  cost : ∀ x ∈ lp.cost, x.isFinite = true
  coefficients : ∀ c ∈ lp.constraints, ∀ x ∈ c.coefficients, x.isFinite = true
  rhs : ∀ c ∈ lp.constraints, c.rhs.isFinite = true

end LinearProgram

open Inconsistency in
theorem Description.isFinite_of_program? {d : Description} {lp : LinearProgram Float d.cost.length}
    (h : d.program? = .ok lp) : lp.IsFinite := by
  obtain ⟨rows, hrows, h⟩ := exists_of_bind h
  unfold checkDimensions at hrows
  split at hrows
  next => cases hrows
  next hlength =>
  obtain ⟨rows', hcheck, hrows⟩ := exists_of_bind hrows
  obtain ⟨⟨⟩, hcost, hrows⟩ := exists_of_bind hrows
  obtain ⟨⟨⟩, hmatrix, hrows⟩ := exists_of_bind hrows
  obtain ⟨⟨⟩, hrhs, hrows⟩ := exists_of_bind hrows
  cases hrows
  split at h
  next => cases h
  next =>
  obtain ⟨⟨⟩, -, h⟩ := exists_of_bind h
  obtain ⟨free, -, h⟩ := exists_of_bind h
  cases h
  have hmem : ∀ row ∈ rows, row.toList ∈ d.matrix :=
    fun row hrow => rows_of_checkRows 1 d.matrix rows hcheck ▸ List.mem_map_of_mem hrow
  refine ⟨by simpa using isFinite_of_checkFinite hcost, ?_, ?_⟩ <;> intro c hc
  · obtain ⟨⟨row, relation, rhs⟩, hzip, rfl⟩ := List.mem_map.1 hc
    intro x hx
    exact isFinite_of_checkFinite hmatrix x (List.mem_flatten.2
      ⟨row.toList, hmem row (List.of_mem_zip hzip).1, by simpa using hx⟩)
  · obtain ⟨⟨row, relation, rhs⟩, hzip, rfl⟩ := List.mem_map.1 hc
    exact isFinite_of_checkFinite hrhs rhs (List.of_mem_zip (List.of_mem_zip hzip).2).2

namespace LinearProgram

variable {n : Nat} (lp : LinearProgram Float n)

/-! ## Standard form -/

theorem isFinite_split {row : Vector Float n} (h : ∀ x ∈ row, x.isFinite = true) :
    ∀ x ∈ lp.split row, x.isFinite = true := by
  intro x hx
  rcases Vector.mem_append.1 hx with hx | hx
  · exact h x hx
  · obtain ⟨k, rfl⟩ := Vector.mem_ofFn.1 hx
    rw [Binary64.isFinite_neg]
    exact h _ (Vector.getElem_mem _)

theorem isFinite_slackPart (width k : Nat) (relation : Relation) :
    ∀ x ∈ slackPart width k (relation.slack? : Option Float), x.isFinite = true := by
  have hset (s : Float) (hs : s.isFinite = true) :
      ∀ x ∈ (Vector.replicate width 0).setIfInBounds k s, x.isFinite = true := by
    intro x hx
    obtain ⟨i, hi, rfl⟩ := Vector.getElem_of_mem hx
    rw [Vector.getElem_setIfInBounds, Vector.getElem_replicate]
    split
    · exact hs
    · exact Binary64.isFinite_zero
  cases relation with
  | equal => exact fun x hx => Vector.eq_of_mem_replicate hx ▸ Binary64.isFinite_zero
  | atLeast => exact hset (-1) (by rw [Binary64.isFinite_neg, Binary64.isFinite_one])
  | atMost => exact hset 1 Binary64.isFinite_one

theorem IsFinite.standardCost {lp : LinearProgram Float n} (h : lp.IsFinite) :
    ∀ x ∈ lp.standardCost, x.isFinite = true := by
  intro x hx
  rcases Vector.mem_append.1 hx with hx | hx
  · refine lp.isFinite_split (fun y hy => ?_) x hx
    split at hy
    · exact h.cost y hy
    · obtain ⟨z, hz, rfl⟩ := Vector.mem_map.1 hy
      rw [Binary64.isFinite_neg]
      exact h.cost z hz
  · exact Vector.eq_of_mem_replicate hx ▸ Binary64.isFinite_zero

/-- The standard form adds zeros and ones to the numbers that are given, and changes signs. -/
theorem IsFinite.standardize {lp : LinearProgram Float n} (h : lp.IsFinite) :
    Checked.isFinite lp.standardize = true := by
  rw [Checked.isFinite, Bool.and_eq_true, List.all_eq_true, List.all_eq_true]
  refine ⟨fun x hx => h.standardCost x (Vector.mem_toList_iff.1 hx), fun e he => ?_⟩
  obtain ⟨i, hi⟩ := List.mem_iff_getElem?.1 he
  rw [LinearProgram.standardize, getElem?_equationsFrom, Option.map_eq_some_iff] at hi
  obtain ⟨c, hc, rfl⟩ := hi
  have hmem : c ∈ lp.constraints := List.mem_of_getElem? hc
  rw [Bool.and_eq_true, List.all_eq_true]
  refine ⟨fun x hx => ?_, h.rhs c hmem⟩
  rcases Vector.mem_append.1 (Vector.mem_toList_iff.1 hx) with hx | hx
  · exact lp.isFinite_split (h.coefficients c hmem) x hx
  · exact isFinite_slackPart _ _ c.relation x hx

end LinearProgram

/-! ## Checked -/

namespace Checked

variable {n : Nat} {lp : LinearProgram Float n}

theorem slackPart_eq {width k : Nat} {slack : Option Float} (h : slack.isSome = true → k < width) :
    slackPart width k slack = some (LinearProgram.slackPart width k slack) := by
  cases slack with
  | none => rfl
  | some s =>
    rw [slackPart, dif_pos (h rfl), LinearProgram.slackPart]
    exact congrArg some (Vector.ext fun i hi => by
      rw [Vector.getElem_set, Vector.getElem_setIfInBounds])

theorem equationsFrom_eq (constraints : List (Constraint Float n)) (k : Nat)
    (h : k + constraints.countP (·.relation.isInequality) ≤ lp.nrSlacks) :
    equationsFrom lp k constraints = some (lp.equationsFrom k constraints) := by
  induction constraints generalizing k with
  | nil => rfl
  | cons c rest ih =>
    rw [List.countP_cons] at h
    have hcolumn : (c.relation.slack? : Option Float).isSome = true → k < lp.nrSlacks := by
      intro hc
      rw [if_pos (c.relation.isSome_slack? ▸ hc)] at h
      omega
    have hrest : (if (c.relation.slack? : Option Float).isSome then k + 1 else k) +
        rest.countP (·.relation.isInequality) ≤ lp.nrSlacks := by
      rw [c.relation.isSome_slack?]
      split at h
      next hc => rw [if_pos hc]; omega
      next hc => rw [if_neg hc]; omega
    rw [equationsFrom, slackPart_eq hcolumn, LinearProgram.equationsFrom]
    dsimp only [Option.bind_eq_bind, Option.bind_some]
    rw [ih _ hrest]
    rfl

theorem standardize_eq (lp : LinearProgram Float n) : standardize lp = some lp.standardize := by
  rw [standardize, equationsFrom_eq lp.constraints 0 (Nat.zero_add _).le]
  rfl

theorem convert_eq {p : StandardForm Float n} (h : isFinite p = true) :
    convert p = some (p.map Scalar.ofFloat : StandardForm Rat n) := if_pos h

theorem isZero_cost {p : StandardForm Float n} (h : isFinite p = true) (j : Fin n) :
    Scalar.isZero ((p.map Scalar.ofFloat : StandardForm Rat n).cost.get j) =
      Scalar.isZero (p.cost.get j) := by
  rw [isFinite, Bool.and_eq_true, List.all_eq_true] at h
  rw [StandardForm.map, Vector.get_eq_getElem, Vector.getElem_map]
  exact Exact.isZero_ofFloat (h.1 _ (Vector.mem_toList_iff.2 (Vector.getElem_mem _)))

theorem isZero_coefficient {p : StandardForm Float n} (h : isFinite p = true)
    {e : Equation Float n} (he : e ∈ p.equations) (j : Fin n) :
    Scalar.isZero ((e.coefficients.map (Scalar.ofFloat : Float → Rat)).get j) =
      Scalar.isZero (e.coefficients.get j) := by
  simp only [isFinite, Bool.and_eq_true, List.all_eq_true] at h
  rw [Vector.get_eq_getElem, Vector.getElem_map]
  exact Exact.isZero_ofFloat ((h.2 e he).1 _ (Vector.mem_toList_iff.2 (Vector.getElem_mem _)))

/-- The rows in which a column has a value are the same before and after conversion. -/
theorem filter_zipIdx_map {p : StandardForm Float n} (h : isFinite p = true) (j : Fin n) :
    ((p.map Scalar.ofFloat : StandardForm Rat n).equations.zipIdx.filter fun (e, _) =>
        !Scalar.isZero (e.coefficients.get j)) =
      (p.equations.zipIdx.filter fun (e, _) => !Scalar.isZero (e.coefficients.get j)).map
        (Prod.map (fun e => ⟨e.coefficients.map Scalar.ofFloat, Scalar.ofFloat e.rhs⟩) id) := by
  rw [StandardForm.map, List.zipIdx_map, List.filter_map]
  refine congrArg _ (List.filter_congr fun x hx => ?_)
  have hmem : x.1 ∈ p.equations := List.fst_mem_of_mem_zipIdx hx
  exact congrArg (! ·) (isZero_coefficient h hmem j)

theorem slackColumns_eq {p : StandardForm Float n} (h : isFinite p = true) :
    slackColumns p = some (Board.slackColumns (p.map Scalar.ofFloat : StandardForm Rat n)) := by
  have hlength : (p.map Scalar.ofFloat : StandardForm Rat n).equations.length =
      p.equations.length := List.length_map _
  rw [slackColumns, Board.slackColumns, hlength]
  refine foldlM_eq (I := fun found => found.length = p.equations.length) _ ?_ _
    List.length_replicate
  intro found hfound j _
  rw [isZero_cost h, filter_zipIdx_map h]
  split
  next =>
    cases hrows : p.equations.zipIdx.filter fun (e, _) => !Scalar.isZero (e.coefficients.get j) with
    | nil => exact ⟨rfl, hfound⟩
    | cons x rest =>
      cases rest with
      | nil =>
        obtain ⟨e, i⟩ := x
        have hi : i < found.length := by
          have hmem : (e, i) ∈ p.equations.zipIdx :=
            (List.mem_filter.1 (hrows ▸ List.mem_singleton_self (e, i))).1
          exact hfound ▸ List.snd_lt_of_mem_zipIdx hmem
        have hvalue : (e.coefficients.map (Scalar.ofFloat : Float → Rat)).get j =
            Scalar.ofFloat (e.coefficients.get j) := by
          rw [Vector.get_eq_getElem, Vector.getElem_map]
          rfl
        refine ⟨(setAt_eq hi _).trans (congrArg (fun a => some (found.set i (some (j.val, a)))) ?_),
          (List.length_set ..).trans hfound⟩
        exact hvalue.symm
      | cons => exact ⟨rfl, hfound⟩
  next => exact ⟨rfl, hfound⟩

end Checked

end LinProg
