import LinProg.Proofs.Branching.Genuine

/-!
# How children share out the points of a node

The child of a binary level has the points of its parent at which the variable takes the fixed value
(`offers_fix`), the child of an integer level those within the bound (`offers_addBound`).  So the
two children together have all points of their parent that are integral in the variable, worth what
they were, no other points, and no point twice unless the variable was bounded around an integer
(`children_share_out`).
-/

namespace LinProg

open Denoting Search

variable {α : Type} [Integral α] [Denoting α] {n : Nat}

/-- Nothing was rounded in branching: the shares of a variable that was fixed are exact, and one
that was bounded had a number for its value. -/
structure Visit.Unrounded (visit : Visit α n) : Prop where
  fixes : ∀ lp, visit.problem = some lp → ∀ w : Fin n, visit.verdict = .branchedBinary w.val →
    ∀ side : Side, lp.FixesExactly w side.fixed
  isNumber : ∀ index value, visit.verdict = .branchedInteger index value → IsNumber value

theorem Visit.unrounded_of_binary {visit : Visit α n} {lp : LinearProgram α n} {w : Fin n}
    (hproblem : visit.problem = some lp) (hverdict : visit.verdict = .branchedBinary w.val)
    (hfixes : ∀ side : Side, lp.FixesExactly w side.fixed) : visit.Unrounded := by
  refine ⟨fun lp' hlp u hu => ?_, fun index value hvalue => ?_⟩
  · obtain rfl := Option.some.inj (hproblem.symm.trans hlp)
    obtain rfl : w = u := Fin.ext (Verdict.branchedBinary.inj (hverdict.symm.trans hu))
    exact hfixes
  · cases hverdict.symm.trans hvalue

theorem Visit.unrounded_of_integer {visit : Visit α n} {index : Nat} {f : α}
    (hverdict : visit.verdict = .branchedInteger index f) (hnumber : IsNumber f) :
    visit.Unrounded := by
  refine ⟨fun lp _ w hw => ?_, fun index' value hvalue => ?_⟩
  · cases hverdict.symm.trans hw
  · obtain ⟨-, rfl⟩ := Verdict.branchedInteger.inj (hverdict.symm.trans hvalue)
    exact hnumber

theorem Visit.unrounded_rat (visit : Visit Rat n) : visit.Unrounded :=
  ⟨fun lp _ w _ side => lp.fixesExactly_rat w side.fixed, fun _ _ _ => trivial⟩

/-- The point satisfies the problem of the node, has the value at which the last decision fixed a
variable if it did, and is worth so much. -/
def Node.Offers (node : Node α n) (z : Fin n → Rat) (worth : Rat) : Prop :=
  ∃ lp, node.problem = some lp ∧ lp.read.Feasible z ∧ lp.read.value z = worth ∧
    ∀ decision ∈ node.path.head?, ∀ (w : Fin n) (value : α),
      decision.fixing = some (w.val, value) → z w = toRat value

namespace Search

open MixedIntegerProgram

variable {node : Node α n} {lp : LinearProgram α n} {w : Fin n} {z : Fin n → Rat} {worth : Rat}

theorem offers_fix {side : Side} (hexact : lp.FixesExactly w side.fixed) :
    (node.child ⟨side, some (w.val, side.fixed)⟩ (lp.fix w side.fixed)).Offers z worth ↔
      lp.read.Feasible z ∧ z w = toRat (side.fixed : α) ∧ lp.read.value z = worth := by
  constructor
  · rintro ⟨_, hproblem, hfeasible, hvalue, hfixed⟩
    cases hproblem
    have hw : z w = toRat (side.fixed : α) := hfixed _ rfl w side.fixed rfl
    exact ⟨(LinearProgram.feasible_fix hexact hw).1 hfeasible, hw,
      (LinearProgram.value_fix hexact hw).symm.trans hvalue⟩
  · rintro ⟨hfeasible, hw, hvalue⟩
    refine ⟨_, rfl, (LinearProgram.feasible_fix hexact hw).2 hfeasible,
      (LinearProgram.value_fix hexact hw).trans hvalue, ?_⟩
    rintro decision hdecision u value hfixing
    cases hdecision
    obtain ⟨hu, rfl⟩ := Prod.mk.inj (Option.some.inj hfixing)
    rw [← Fin.ext hu]
    exact hw

theorem offers_addBound {side : Side} {r : Relation} {rhs : α} :
    (node.child ⟨side, none⟩ (lp.addBound w r rhs)).Offers z worth ↔
      lp.read.Feasible z ∧ r.Holds (z w) (toRat rhs) ∧ lp.read.value z = worth := by
  constructor
  · rintro ⟨_, hproblem, hfeasible, hvalue, -⟩
    cases hproblem
    obtain ⟨hfeasible, hbound⟩ := LinearProgram.feasible_addBound.1 hfeasible
    exact ⟨hfeasible, hbound, hvalue⟩
  · rintro ⟨hfeasible, hbound, hvalue⟩
    refine ⟨_, rfl, LinearProgram.feasible_addBound.2 ⟨hfeasible, hbound⟩, hvalue, ?_⟩
    rintro decision hdecision u value hfixing
    cases hdecision
    cases hfixing

/-- Two nodes have the points of a problem at which the value of a variable is what their side asks
for, worth what they are to the problem. -/
structure Shares (lp : LinearProgram α n) (w : Fin n) (Asks : Side → Rat → Prop)
    (left right : Node α n) : Prop where
  left : ∀ z worth, left.Offers z worth ↔
    lp.read.Feasible z ∧ Asks .left (z w) ∧ lp.read.value z = worth
  right : ∀ z worth, right.Offers z worth ↔
    lp.read.Feasible z ∧ Asks .right (z w) ∧ lp.read.value z = worth

theorem shares_binaryChildren {left right : Node α n}
    (hchildren : binaryChildren node lp w = [left, right])
    (hexact : ∀ side : Side, lp.FixesExactly w side.fixed) :
    Shares lp w (fun side a => a = toRat (side.fixed : α)) left right := by
  obtain ⟨rfl, hrest⟩ := List.cons.inj hchildren
  obtain ⟨rfl, -⟩ := List.cons.inj hrest
  exact ⟨fun _ _ => offers_fix (hexact .left), fun _ _ => offers_fix (hexact .right)⟩

theorem shares_integerChildren {left right : Node α n} {f : α} (hnumber : IsNumber f)
    (hchildren : integerChildren node lp w f = [left, right]) :
    Shares lp w (Side.Within (toRat f)) left right := by
  obtain ⟨rfl, hrest⟩ := List.cons.inj hchildren
  obtain ⟨rfl, -⟩ := List.cons.inj hrest
  have hoffers (side : Side) (z : Fin n → Rat) (worth : Rat) :
      (node.child ⟨side, none⟩
          (lp.addBound w side.bound.relation (side.rounded f))).Offers z worth ↔
        lp.read.Feasible z ∧ side.Within (toRat f) (z w) ∧ lp.read.value z = worth := by
    rw [offers_addBound, Side.holds_bound hnumber]
  exact ⟨hoffers .left, hoffers .right⟩

namespace Shares

variable {Asks : Side → Rat → Prop} {left right : Node α n}

theorem sound (h : Shares lp w Asks left right) : ∀ child ∈ [left, right], ∀ z worth,
    child.Offers z worth → lp.read.Feasible z ∧ worth = lp.read.value z := by
  intro child hchild z worth hoffers
  rcases List.mem_pair.1 hchild with rfl | rfl
  · obtain ⟨hfeasible, -, hvalue⟩ := (h.left z worth).1 hoffers
    exact ⟨hfeasible, hvalue.symm⟩
  · obtain ⟨hfeasible, -, hvalue⟩ := (h.right z worth).1 hoffers
    exact ⟨hfeasible, hvalue.symm⟩

/-- No point goes to both sides if no value does. -/
theorem disjoint (h : Shares lp w Asks left right)
    (hasks : ∀ a, Asks .left a → ¬Asks .right a) (z : Fin n → Rat) (a b : Rat)
    (hleft : left.Offers z a) : ¬right.Offers z b := by
  intro hright
  exact hasks (z w) ((h.left z a).1 hleft).2.1 ((h.right z b).1 hright).2.1

end Shares

/-- What an evaluation with two children does to the points of its node.  At a binary level the
children fix the variable at zero and at one, and every point at which it is binary goes to the
child with its value.  At an integer level every point at which the variable is an integer goes to
one of the children, and to one only unless the variable was bounded around an integer.  All
points of the children are points of the node, and worth what they are there. -/
theorem children_share_out (s : Search α n) (v : Verbosity) (node : Node α n)
    (state : SearchState α) {left right : Node α n}
    (hchildren : (s.evaluate v node state).children = [left, right])
    (hexact : (s.evaluate v node state).Unrounded) :
    ∃ lp w, node.problem = some lp ∧ s.order[node.level]? = some w.val ∧
      (∀ child ∈ [left, right], ∀ z worth, child.Offers z worth →
        lp.read.Feasible z ∧ worth = lp.read.value z) ∧
      (node.level < s.nrBinary →
        left.fixings = (w.val, 0) :: node.fixings ∧ right.fixings = (w.val, 1) :: node.fixings ∧
        (∀ z, lp.read.Feasible z →
          (z w = 0 → left.Offers z (lp.read.value z)) ∧
            (z w = 1 → right.Offers z (lp.read.value z))) ∧
        ∀ z a b, left.Offers z a → ¬right.Offers z b) ∧
      (s.nrBinary ≤ node.level →
        ∃ f, (withFixings node (s.relax lp).1).x[w.val]? = some f ∧
          (∀ z, lp.read.Feasible z → (∃ k : Int, z w = k) →
            left.Offers z (lp.read.value z) ∨ right.Offers z (lp.read.value z)) ∧
          ((∀ k : Int, toRat f ≠ k) → ∀ z a b, left.Offers z a → ¬right.Offers z b)) := by
  have hproblem := problem_evaluate s v node state
  have hfixings := fixings_evaluate s v node state
  have hsame := level_evaluate s v node state
  rcases branched_evaluate s v node state with hnone | hbranched
  · rw [hnone] at hchildren
    cases hchildren
  cases hbranched with
  | @binary lp w hlp hindex hlevel hverdict hpair =>
    have hpair := hpair.symm.trans hchildren
    rw [hsame] at hindex hlevel
    have hshares := shares_binaryChildren hpair (hexact.fixes lp hlp w hverdict)
    refine ⟨lp, w, hproblem.symm.trans hlp, hindex, hshares.sound, fun _ => ?_, fun h => ?_⟩
    · refine ⟨?_, ?_, fun z hz => ⟨fun hzero => ?_, fun hone => ?_⟩, hshares.disjoint ?_⟩
      · rw [← hfixings, ← (List.cons.inj hpair).1]
        rfl
      · rw [← hfixings, ← (List.cons.inj (List.cons.inj hpair).2).1]
        rfl
      · exact (hshares.left z _).2 ⟨hz, hzero.trans toRat_zero.symm, rfl⟩
      · exact (hshares.right z _).2 ⟨hz, hone.trans toRat_one.symm, rfl⟩
      · rintro a hzero hone
        have := hzero.symm.trans hone
        simp [Side.fixed] at this
    · omega
  | @integer lp w f hlp hindex hlevel hvalue hverdict hpair =>
    have hpair := hpair.symm.trans hchildren
    rw [hsame] at hindex hlevel
    have hshares := shares_integerChildren (hexact.isNumber _ _ hverdict) hpair
    refine ⟨lp, w, hproblem.symm.trans hlp, hindex, hshares.sound, fun h => ?_, fun _ => ?_⟩
    · omega
    · rw [withFixings, hfixings] at hvalue
      refine ⟨f, hvalue, fun z hz hint => ?_, fun hf => hshares.disjoint ?_⟩
      · obtain ⟨k, hk⟩ := hint
        obtain ⟨side, hside⟩ := Side.exists_within (toRat f) k
        rw [← hk] at hside
        cases side with
        | left => exact .inl ((hshares.left z _).2 ⟨hz, hside, rfl⟩)
        | right => exact .inr ((hshares.right z _).2 ⟨hz, hside, rfl⟩)
      · intro a hleft hright
        exact hf _ (Side.eq_floor_of_within hleft hright)

/-- One free integer variable between −7/2 and −3/2, which is −3/2 at the relaxation. -/
def gapProgram : MixedIntegerProgram Float 1 where
  relaxation :=
    { objective := .maximize
      constant := 0
      cost := #v[3]
      constraints := [⟨#v[4], .atLeast, -14⟩, ⟨#v[4], .atMost, -6⟩]
      free := .ofList [Fin.last 0] }
  integers := .ofList [Fin.last 0]
  binaries := .empty

def gapVisit : Visit Float 1 :=
  (gapProgram.search rationalRelax).evaluate none (.root gapProgram.root) {}

set_option maxRecDepth 10000 in
/-- The point −2 goes to one of the children, and no point to both. -/
theorem gapProgram_share_out : ∃ left right : Node Float 1,
    gapVisit.children = [left, right] ∧ gapVisit.Unrounded ∧
      (left.Offers (fun _ => -2) (-6) ∨ right.Offers (fun _ => -2) (-6)) ∧
      ∀ z a b, left.Offers z a → ¬right.Offers z b := by
  have hverdict : gapVisit.verdict = .branchedInteger 0 (-1.5) := by decide +kernel
  have hexact : gapVisit.Unrounded := Visit.unrounded_of_integer hverdict (by decide)
  have hlength : gapVisit.children.length = 2 := by decide +kernel
  obtain ⟨left, right, hchildren⟩ := List.length_eq_two.1 hlength
  obtain ⟨lp, w, hlp, hw, -, -, hinteger⟩ := children_share_out _ _ _ _ hchildren hexact
  obtain ⟨f, hf, hcover, hdisjoint⟩ := hinteger (Nat.zero_le _)
  obtain rfl := Subsingleton.elim w 0
  obtain rfl := Option.some.inj hlp
  refine ⟨left, right, hchildren, hexact, ?_, hdisjoint fun k hk => ?_⟩
  · have hvalue : gapProgram.root.read.value (fun _ => -2) = -6 := by decide +kernel
    have hoffers := hcover (fun _ => -2) (by decide +kernel) ⟨-2, by norm_num⟩
    rwa [hvalue] at hoffers
  · have hx : (withFixings (.root gapProgram.root) (rationalRelax gapProgram.root).1).x[0]? =
        some (-1.5) := by decide +kernel
    obtain rfl := Option.some.inj (hf.symm.trans hx)
    exact absurd ((isIntegral_iff (by decide)).2 ⟨k, hk⟩) (by decide)

end Search

end LinProg
