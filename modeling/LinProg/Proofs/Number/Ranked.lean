import LinProg.Proofs.Number.Double
import LinProg.Solution
import Mathlib.Order.WithBot

/-!
# Numbers in their order

A search compares objective values and nothing else about them.  `Ranked` says that all values but
those that are no numbers at all can be put in one linear order, which is what comparisons are
about; infinite doubles have their place in it, and both zeros have the same.
-/

namespace LinProg

/-- Numbers that are compared by their rank. -/
class Ranked (α : Type) [Scalar α] where
  /-- The value can be compared. -/
  IsValue : α → Prop
  rank : α → WithBot (WithTop Rat)
  less_iff {a b : α} : IsValue a → IsValue b → (Scalar.less a b = true ↔ rank a < rank b)
  same_iff {a b : α} : IsValue a → IsValue b → (Scalar.same a b = true ↔ rank a = rank b)

open Ranked

/-! ## Rationals -/

instance : Ranked Rat where
  IsValue _ := True
  rank q := ((q : WithTop Rat) : WithBot (WithTop Rat))
  less_iff {p q} _ _ := by
    rw [WithBot.coe_lt_coe, WithTop.coe_lt_coe]
    exact decide_eq_true_iff
  same_iff {p q} _ _ := by
    rw [WithBot.coe_inj, WithTop.coe_inj]
    exact beq_iff_eq

/-! ## Doubles -/

namespace Binary64

open Float.Model Float.Model.UnpackedFloat

/-- Finite doubles by what they denote, between the infinite ones. -/
def rank (x : Float) : WithBot (WithTop Rat) :=
  match x.toModel.unpack with
  | .infinity .negative => ⊥
  | .infinity .positive => (⊤ : WithTop Rat)
  | _ => (toRat x : WithTop Rat)

theorem rank_cases {x : Float} (h : x.isNaN = false) :
    (x.toModel.unpack = .infinity .negative ∧ rank x = ⊥) ∨
      (x.toModel.unpack = .infinity .positive ∧ rank x = (⊤ : WithTop Rat)) ∨
      (x.isFinite = true ∧ rank x = (toRat x : WithTop Rat)) := by
  change x.toModel.unpack.isNaN = false at h
  show _ ∨ _ ∨ (x.toModel.unpack.isFinite = true ∧ _)
  unfold rank
  cases hx : x.toModel.unpack with
  | notANumber =>
    rw [hx] at h
    cases h
  | infinity s => cases s <;> simp
  | zero | finite => exact .inr (.inr ⟨rfl, by dsimp only⟩)

theorem compare_negativeInfinity {x y : Float} (hx : x.toModel.unpack = .infinity .negative)
    (hy : y.isFinite = true) :
    UnpackedFloat.compare x.toModel.unpack y.toModel.unpack = some .lt ∧
      UnpackedFloat.compare y.toModel.unpack x.toModel.unpack = some .gt := by
  rw [hx]
  rcases unpack_of_isFinite hy with ⟨-, huy⟩ | ⟨hm, huy⟩ <;> rw [huy] <;>
    simp [UnpackedFloat.compare]

theorem compare_positiveInfinity {x y : Float} (hx : x.toModel.unpack = .infinity .positive)
    (hy : y.isFinite = true) :
    UnpackedFloat.compare x.toModel.unpack y.toModel.unpack = some .gt ∧
      UnpackedFloat.compare y.toModel.unpack x.toModel.unpack = some .lt := by
  rw [hx]
  rcases unpack_of_isFinite hy with ⟨-, huy⟩ | ⟨hm, huy⟩ <;> rw [huy] <;>
    simp [UnpackedFloat.compare]

theorem compare_rank {x y : Float} (hx : x.isNaN = false) (hy : y.isNaN = false) :
    UnpackedFloat.compare x.toModel.unpack y.toModel.unpack = some (cmp (rank x) (rank y)) := by
  have hmono : StrictMono fun q : Rat => ((q : WithTop Rat) : WithBot (WithTop Rat)) :=
    WithBot.coe_strictMono.comp WithTop.coe_strictMono
  have hbot (q : WithTop Rat) : (⊥ : WithBot (WithTop Rat)) < q := WithBot.bot_lt_coe q
  have htop (q : Rat) : ((q : WithTop Rat) : WithBot (WithTop Rat)) < (⊤ : WithTop Rat) :=
    WithBot.coe_lt_coe.2 (WithTop.coe_lt_top q)
  rcases rank_cases hx with ⟨hux, hrx⟩ | ⟨hux, hrx⟩ | ⟨hfx, hrx⟩ <;>
    rcases rank_cases hy with ⟨huy, hry⟩ | ⟨huy, hry⟩ | ⟨hfy, hry⟩ <;> rw [hrx, hry]
  · rw [hux, huy, cmp_self_eq_eq]
    rfl
  · rw [hux, huy, (cmp_eq_lt_iff _ _).2 (hbot _)]
    rfl
  · rw [(compare_negativeInfinity hux hfy).1, (cmp_eq_lt_iff _ _).2 (hbot _)]
  · rw [hux, huy, (cmp_eq_gt_iff _ _).2 (hbot _)]
    rfl
  · rw [hux, huy, cmp_self_eq_eq]
    rfl
  · rw [(compare_positiveInfinity hux hfy).1, (cmp_eq_gt_iff _ _).2 (htop _)]
  · rw [(compare_negativeInfinity huy hfx).2, (cmp_eq_gt_iff _ _).2 (hbot _)]
  · rw [(compare_positiveInfinity huy hfx).2, (cmp_eq_lt_iff _ _).2 (htop _)]
  · rw [compare_unpack hfx hfy, hmono.cmp_map_eq]

end Binary64

instance : Ranked Float where
  IsValue x := x.isNaN = false
  rank := Binary64.rank
  less_iff {x y} hx hy := by
    show decide (x < y) = true ↔ _
    rw [decide_eq_true_iff, Binary64.lt_iff_compare, Binary64.compare_rank hx hy, Option.some_inj,
      cmp_eq_lt_iff]
  same_iff {x y} hx hy := by
    show (x == y) = true ↔ _
    rw [Binary64.beq_iff_compare, Binary64.compare_rank hx hy, Option.some_inj, cmp_eq_eq_iff]

instance : DecidablePred (IsValue : Float → Prop) :=
  fun x => inferInstanceAs (Decidable (x.isNaN = false))

/-! ## Objective values -/

variable {α : Type} [Scalar α] [Ranked α]

theorem Objective.improves_eq_false {objective : Objective} {a b : α} (ha : IsValue a)
    (hb : IsValue b) :
    objective.improves a b = false ↔
      match objective with
      | .maximize => rank a ≤ rank b
      | .minimize => rank b ≤ rank a := by
  cases objective
  · show Scalar.less b a = false ↔ rank a ≤ rank b
    rw [← not_lt, ← less_iff hb ha, Bool.not_eq_true]
  · show Scalar.less a b = false ↔ rank b ≤ rank a
    rw [← not_lt, ← less_iff ha hb, Bool.not_eq_true]

namespace Solution

def HasValue (s : Solution α) : Prop := ∃ a, s.objectiveValue = some a ∧ IsValue a

variable {objective : Objective} {s t u : Solution α}

omit [Ranked α] in
theorem improves_eq_false {a b : α} (ha : s.objectiveValue = some a)
    (hb : t.objectiveValue = some b) :
    s.improves objective t = false ↔ objective.improves a b = false := by
  rw [improves, ha, hb]

theorem not_improves_self (hs : s.HasValue) : s.improves objective s = false := by
  obtain ⟨a, ha, hvalue⟩ := hs
  rw [improves_eq_false ha ha, Objective.improves_eq_false hvalue hvalue]
  cases objective <;> exact le_rfl

theorem not_improves_trans (hs : s.HasValue) (ht : t.HasValue) (hu : u.HasValue)
    (hst : s.improves objective t = false) (htu : t.improves objective u = false) :
    s.improves objective u = false := by
  obtain ⟨a, ha, hsvalue⟩ := hs
  obtain ⟨b, hb, htvalue⟩ := ht
  obtain ⟨c, hc, huvalue⟩ := hu
  rw [improves_eq_false ha hb, Objective.improves_eq_false hsvalue htvalue] at hst
  rw [improves_eq_false hb hc, Objective.improves_eq_false htvalue huvalue] at htu
  rw [improves_eq_false ha hc, Objective.improves_eq_false hsvalue huvalue]
  cases objective
  · exact hst.trans htu
  · exact htu.trans hst

theorem not_improves_of_improves (hs : s.HasValue) (ht : t.HasValue)
    (h : s.improves objective t = true) : t.improves objective s = false := by
  obtain ⟨a, ha, hsvalue⟩ := hs
  obtain ⟨b, hb, htvalue⟩ := ht
  rw [← Bool.not_eq_false, improves_eq_false ha hb,
    Objective.improves_eq_false hsvalue htvalue] at h
  rw [improves_eq_false hb ha, Objective.improves_eq_false htvalue hsvalue]
  cases objective <;> exact le_of_not_ge h

/-- Values of which neither improves on the other are the same. -/
theorem same_of_not_improves {a b : α} (ha : s.objectiveValue = some a)
    (hb : t.objectiveValue = some b) (hsvalue : IsValue a) (htvalue : IsValue b)
    (hst : s.improves objective t = false) (hts : t.improves objective s = false) :
    Scalar.same a b = true := by
  rw [improves_eq_false ha hb, Objective.improves_eq_false hsvalue htvalue] at hst
  rw [improves_eq_false hb ha, Objective.improves_eq_false htvalue hsvalue] at hts
  rw [same_iff hsvalue htvalue]
  cases objective
  · exact le_antisymm hst hts
  · exact le_antisymm hts hst

end Solution

end LinProg
