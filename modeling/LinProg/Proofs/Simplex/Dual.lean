import LinProg.Proofs.Simplex.Primal
import Mathlib.Algebra.Order.Field.Basic

/-!
# The dual phase

A repair keeps all relative profits nonpositive, because its column has the smallest ratio.  A round
without repair leaves rows of negative right hand side only if they have no negative value at all,
and such a row shows that the program is infeasible.
-/

namespace LinProg

open Tableau Board

variable {τ : Type} [Tableau τ Rat] {n : Nat} {p : StandardForm Rat n}

/-! ## Choice of a column -/

def Run.Repairs (b : Board τ Rat) (row c : Nat) : Prop :=
  get b.tableau row c < 0 ∧ b.basis.contains (some c) = false

instance (b : Board τ Rat) (row c : Nat) : Decidable (Run.Repairs b row c) :=
  inferInstanceAs (Decidable (_ ∧ _))

/-- The best column so far: one of the smallest ratio among those that can repair the row. -/
def Run.IsBest (b : Board τ Rat) (row : Nat) (columns : List Nat) : Option (Nat × Rat) → Prop
  | none => ∀ j ∈ columns, ¬Repairs b row j
  | some (c, ratio) => c ∈ columns ∧ Repairs b row c ∧
      ratio = get b.tableau 0 c / get b.tableau row c ∧
      ∀ j ∈ columns, Repairs b row j → ratio ≤ get b.tableau 0 j / get b.tableau row j

theorem Run.betterColumn_eq (b : Board τ Rat) (row c : Nat) (best : Option (Nat × Rat)) :
    betterColumn b row best c =
      if Repairs b row c then
        match best with
        | none => some (c, get b.tableau 0 c / get b.tableau row c)
        | some (_, ratio) =>
          if get b.tableau 0 c / get b.tableau row c < ratio then
            some (c, get b.tableau 0 c / get b.tableau row c)
          else best
      else best := by
  have hif : (isNegative b.tableau row c && !b.basis.contains (some c)) = true ↔
      Repairs b row c := by
    simp [isNegative, Repairs]
  unfold betterColumn
  by_cases hc : Repairs b row c
  · rw [if_pos (hif.2 hc), if_pos hc]
    cases best <;> simp
  · rw [if_neg (mt hif.1 hc), if_neg hc]

theorem Run.IsBest.betterColumn {b : Board τ Rat} {row : Nat} {columns : List Nat}
    {best : Option (Nat × Rat)} (h : IsBest b row columns best) (c : Nat) :
    IsBest b row (columns ++ [c]) (Run.betterColumn b row best c) := by
  have hmem {P : Nat → Prop} (hP : ∀ j ∈ columns, P j) (hc : P c) : ∀ j ∈ columns ++ [c], P j := by
    intro j hj
    rcases List.mem_append.1 hj with hj | hj
    · exact hP j hj
    · exact List.mem_singleton.1 hj ▸ hc
  have hlast : c ∈ columns ++ [c] := List.mem_append_right _ (List.mem_singleton_self c)
  rw [betterColumn_eq]
  cases best with
  | none =>
    split
    next hc => exact ⟨hlast, hc, rfl, hmem (fun j hj hjr => absurd hjr (h j hj)) fun _ => le_rfl⟩
    next hc => exact hmem h hc
  | some best =>
    obtain ⟨d, ratio⟩ := best
    obtain ⟨hd, hdr, hratio, hle⟩ := h
    dsimp only
    split
    next hc =>
      split
      next hlt => exact ⟨hlast, hc, rfl, hmem (fun j hj hjr => hlt.le.trans (hle j hj hjr))
        fun _ => le_rfl⟩
      next hlt => exact ⟨List.mem_append_left _ hd, hdr, hratio, hmem hle fun _ => not_lt.1 hlt⟩
    next hc => exact ⟨List.mem_append_left _ hd, hdr, hratio, hmem hle fun hjr => absurd hjr hc⟩

theorem Run.isBest_foldl (b : Board τ Rat) (row : Nat) (columns : List Nat) :
    IsBest b row columns (columns.foldl (betterColumn b row) none) := by
  induction columns using List.reverseRecOn with
  | nil => simp [IsBest]
  | append_singleton columns c ih =>
    rw [List.foldl_append, List.foldl_cons, List.foldl_nil]
    exact ih.betterColumn c

theorem Run.repairColumn_some {b : Board τ Rat} {row c : Nat} (h : repairColumn b row = some c) :
    c < b.nrVariables ∧ Repairs b row c ∧ ∀ j < b.nrVariables, Repairs b row j →
      get b.tableau 0 c / get b.tableau row c ≤ get b.tableau 0 j / get b.tableau row j := by
  obtain ⟨⟨d, ratio⟩, hfold, rfl⟩ := Option.map_eq_some_iff.1 h
  have := isBest_foldl b row (List.range b.nrVariables)
  rw [hfold] at this
  obtain ⟨hd, hdr, rfl, hle⟩ := this
  exact ⟨List.mem_range.1 hd, hdr, fun j hj => hle j (List.mem_range.2 hj)⟩

theorem Run.not_repairs_of_repairColumn_none {b : Board τ Rat} {row : Nat}
    (h : repairColumn b row = none) : ∀ j < b.nrVariables, ¬Repairs b row j := by
  have := isBest_foldl b row (List.range b.nrVariables)
  rw [Option.map_eq_none_iff.1 h] at this
  exact fun j hj => this j (List.mem_range.2 hj)

theorem Board.Sound.get_nonneg_of_basic {b : Board τ Rat} (h : Sound p b) {j : Nat} (hj : j < n)
    (hbasic : b.basis.contains (some j) = true) {row : Nat} (hrow : row < nrRows b.tableau) :
    0 ≤ get b.tableau row j := by
  obtain ⟨i, hi, hij⟩ := List.getElem_of_mem (List.contains_iff_mem.1 hbasic)
  have hlength := h.length
  have hmem : i + 1 ∈ constraintRows b.tableau := mem_constraintRows.2 ⟨Nat.succ_pos i, by omega⟩
  have hcolumn : b.basic (i + 1) = some j := by
    simp [basic, List.getD_eq_getElem?_getD, hi, hij]
  rw [h.unit_of_lt hmem hcolumn hj row hrow]
  split
  · exact zero_le_one
  · exact le_rfl

theorem Board.Sound.get_nonneg_of_not_repairs {b : Board τ Rat} (h : Sound p b) {row j : Nat}
    (hrow : row < nrRows b.tableau) (hj : j < n) (hnot : ¬Run.Repairs b row j) :
    0 ≤ get b.tableau row j := by
  by_contra hneg
  cases hbasic : b.basis.contains (some j) with
  | true => exact hneg (h.get_nonneg_of_basic hj hbasic hrow)
  | false => exact hnot ⟨not_le.1 hneg, hbasic⟩

variable [LawfulTableau τ]

theorem Board.Sound.profitless_repair {b : Board τ Rat} (h : Sound p b) {row c : Nat}
    (hrow : row ∈ constraintRows b.tableau) (hc : Run.repairColumn b row = some c)
    (hp : b.Profitless) : (b.exchanged (Tableau.pivot b.tableau row c) row c).Profitless := by
  obtain ⟨hcn, ⟨hneg, -⟩, hle⟩ := Run.repairColumn_some hc
  have hrow' := mem_constraintRows.1 hrow
  intro j hj
  have hj : j < b.nrVariables := hj
  have hget : get (Tableau.pivot b.tableau row c) 0 j = _ :=
    LawfulTableau.get_pivot b.tableau row c 0 j hneg.ne
  rw [Board.exchanged, hget, if_neg hrow'.1.ne]
  have hpc := hp c hcn
  have hpj := hp j hj
  have hflip : get b.tableau 0 c * (get b.tableau row j / get b.tableau row c) =
      get b.tableau 0 c / get b.tableau row c * get b.tableau row j := by ring
  have hratio : 0 ≤ get b.tableau 0 c / get b.tableau row c := div_nonneg_of_nonpos hpc hneg.le
  by_cases hjr : Run.Repairs b row j
  · -- the ratio of the column itself is no larger than that of column `j`
    have hmul := mul_le_mul_of_nonpos_right (hle j hj hjr) hjr.1.le
    rw [div_mul_cancel₀ _ hjr.1.ne] at hmul
    rw [hflip]
    linarith
  · have := mul_nonneg hratio
      (h.get_nonneg_of_not_repairs hrow'.2 (h.nrVariables ▸ hj) hjr)
    rw [hflip]
    linarith

/-! ## One round -/

/-- What holds while the dual phase is running on some rows.  `start` is what the phase started
with, as far as it is kept. -/
structure Run.Repairing (p : StandardForm Rat n) (start r : Run τ Rat) : Prop where
  sound : Sound p r.toBoard
  full : r.IsFull
  state : r.state = .solving
  length : r.basis.length = start.basis.length
  profitless : start.Profitless → r.Profitless
  hasArtificial : r.HasArtificial → start.HasArtificial

def Board.Repaired (b : Board τ Rat) : Prop :=
  ∀ row ∈ constraintRows b.tableau, get b.tableau row b.rhs < 0 →
    ∀ j < b.nrVariables, 0 ≤ get b.tableau row j

theorem Run.Repairing.pivot {start r : Run τ Rat} (h : Repairing p start r) {row c : Nat}
    (hrow : row ∈ constraintRows r.tableau) (hc : Run.repairColumn r.toBoard row = some c)
    (guard : CyclingGuard) :
    Repairing p start
      ({ r with guard := guard, iterations := r.iterations + 1 }.pivot .dual row c) := by
  obtain ⟨hcn, ⟨hneg, -⟩, -⟩ := Run.repairColumn_some hc
  have hcn : c < n := by rwa [h.sound.nrVariables] at hcn
  have hs := h.sound.pivot hrow hcn hneg.ne
  refine ⟨hs.of_eq rfl rfl rfl rfl,
    h.full.exchanged h.sound hrow (by simp), h.state, ?_,
    fun hp => h.sound.profitless_repair hrow hc (h.profitless hp), ?_⟩
  · exact (List.length_set ..).trans h.length
  · rintro ⟨i, hi, ha⟩
    apply h.hasArtificial
    have hi : i ∈ constraintRows r.tableau := by
      rwa [← constraintRows_congr (ShapedTableau.nrRows_pivot r.tableau row c)]
    have hbasic := h.sound.basic_exchanged (Tableau.pivot r.tableau row c) c hrow hi
    change r.isArtificial ((r.exchanged (Tableau.pivot r.tableau row c) row c).basic i) = true at ha
    rw [hbasic] at ha
    split at ha
    · have := h.sound.firstArtificial
      simp [isArtificial] at ha
      omega
    · exact ⟨i, hi, ha⟩

omit [LawfulTableau τ] in
theorem Run.Repairing.constraintRows_eq {start r : Run τ Rat} (h : Repairing p start r) :
    constraintRows r.tableau = List.range' 1 start.basis.length := by
  have := h.sound.length
  have := h.length
  rw [constraintRows]
  congr 1
  omega

/-- What a pass over some rows makes of a run: a row was repaired, or none of them can be, or the
guard tripped. -/
structure Run.Passed (p : StandardForm Rat n) (start r : Run τ Rat) (rows : List Nat)
    (pivoted : Bool) (out : Run τ Rat × Bool) : Prop where
  more : out.2 = true → Repairing p start out.1
  done : out.2 = false → (pivoted = false ∧ out.1 = r ∧
      ∀ row ∈ rows, get r.tableau row r.rhs < 0 → ∀ j < r.nrVariables, 0 ≤ get r.tableau row j) ∨
    out.1.state = .noSolution ∧ out.1.Tripped

omit [LawfulTableau τ] in
/-- A row can be passed over if it has nothing to repair, or nothing to repair it with. -/
theorem Run.Passed.cons {start r : Run τ Rat} {row : Nat} {rest : List Nat} {pivoted : Bool}
    {out : Run τ Rat × Bool} (h : Passed p start r rest pivoted out)
    (hrow : get r.tableau row r.rhs < 0 → ∀ j < r.nrVariables, 0 ≤ get r.tableau row j) :
    Passed p start r (row :: rest) pivoted out := by
  refine ⟨h.more, fun e => (h.done e).imp_left fun ⟨hp, hr, hall⟩ => ⟨hp, hr, fun i hi => ?_⟩⟩
  rcases List.mem_cons.1 hi with rfl | hi
  · exact hrow
  · exact hall i hi

theorem Run.Repairing.repairRows {start : Run τ Rat} (rows : List Nat) (r : Run τ Rat)
    (pivoted : Bool) (h : Repairing p start r)
    (hrows : ∀ row ∈ rows, row ∈ List.range' 1 start.basis.length) :
    Passed p start r rows pivoted (Run.repairRows rows r pivoted) := by
  induction rows generalizing r pivoted with
  | nil => exact ⟨fun _ => h, fun e => .inl ⟨e, rfl, by simp⟩⟩
  | cons row rest ih =>
    have hmem : row ∈ constraintRows r.tableau :=
      h.constraintRows_eq ▸ hrows row List.mem_cons_self
    have hrest : ∀ i ∈ rest, i ∈ List.range' 1 start.basis.length :=
      fun i hi => hrows i (List.mem_cons_of_mem _ hi)
    unfold Run.repairRows
    by_cases hneg : get r.tableau row r.rhs < 0
    · rw [if_pos (by simpa [isNegative] using hneg)]
      split
      next hnone =>
        exact (ih r pivoted h hrest).cons fun _ j hj =>
          h.sound.get_nonneg_of_not_repairs (mem_constraintRows.1 hmem).2
            (h.sound.nrVariables ▸ hj) (not_repairs_of_repairColumn_none hnone j hj)
      next c hc =>
        dsimp only
        split
        next =>
          exact ⟨fun e => (by cases e), fun _ => .inr ⟨rfl, _, List.mem_cons_self, rfl⟩⟩
        next =>
          have hpass := ih _ true (h.pivot hmem hc (r.guard.record row)) hrest
          exact ⟨hpass.more, fun e => .inr ((hpass.done e).resolve_left fun hnot => by
            cases hnot.1)⟩
    · rw [if_neg (by simpa [isNegative] using hneg)]
      exact (ih r pivoted h hrest).cons fun hneg' => absurd hneg' hneg

/-! ## The whole phase -/

/-- What a dual phase leaves if the guard doesn't trip. -/
theorem Run.dual_spec {m t : Nat} {r : Run τ Rat} (h : Sound p r.toBoard) (hfull : r.IsFull)
    (hshaped : Shaped n m t r.toBoard) (hstate : r.state = .solving) :
    (Repairing p r r.dual ∧ r.dual.Repaired) ∨ r.dual.state = .noSolution ∧ r.dual.Tripped := by
  have hreset : Repairing p r { r with guard := r.guard.reset } :=
    ⟨h.of_eq rfl rfl rfl rfl, hfull, hstate, rfl, id, id⟩
  have hpass (s : Run τ Rat) (hs : Repairing p r s) :
      Passed p r s (constraintRows s.tableau) false s.dualStep :=
    hs.repairRows _ s false fun row hrow => hs.constraintRows_eq ▸ hrow
  obtain ⟨last, hlast, hstep⟩ :=
    (dual_ends hshaped hstate).1.last_step (fun s hs => (hpass s hs).more) hreset
  have hdone := (hpass last hlast).done (by rw [hstep])
  rw [hstep] at hdone
  rcases hdone with ⟨-, heq, hall⟩ | htrip
  · dsimp only at heq
    rw [heq]
    exact .inl ⟨hlast, hall⟩
  · exact .inr htrip

end LinProg
