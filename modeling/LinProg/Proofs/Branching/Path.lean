import LinProg.Proofs.Branching.Children

/-!
# What the problem of a node means

A node keeps of its path only the sides and the eliminated variables; its problem was rewritten once
for each of its levels.  `Descends` gives back the visits that led to it.  Along such a descent the
eliminated variables are the binary ones in branching order, and the problem says about points that
agree with them what the root says and what the bounds of the integer levels add
(`problem_means_path`).
-/

namespace LinProg

open Denoting Search

variable {α : Type} {n : Nat}

/-! ## Descents -/

namespace Search

variable [Integral α]

/-- The root leads to a node by visits of the nodes above it, each in whatever state of the search;
the latest visit comes first. -/
inductive Descends (s : Search α n) (v : Verbosity) (lp : LinearProgram α n) :
    List (Visit α n) → Node α n → Prop
  | root : Descends s v lp [] (.root lp)
  | child {above : List (Visit α n)} {node child : Node α n} (state : SearchState α)
      (hnode : Descends s v lp above node) (hchild : child ∈ (s.evaluate v node state).children) :
      Descends s v lp (s.evaluate v node state :: above) child

namespace Descends

variable {s : Search α n} {v : Verbosity} {lp : LinearProgram α n} {above : List (Visit α n)}
  {node : Node α n}

theorem levels (h : s.Descends v lp above node) :
    above.reverse.map (·.node.level) = List.range node.level := by
  induction h with
  | root => rfl
  | @child above node _ state _ hchild ih =>
    rw [List.reverse_cons, List.map_append, ih, (level_of_child hchild).2, List.range_succ,
      List.map_singleton, level_evaluate]

theorem level_le (h : s.Descends v lp above node) : node.level ≤ s.order.length := by
  cases h with
  | root => exact Nat.zero_le _
  | child _ _ hchild =>
    obtain ⟨hlevel, hnext⟩ := level_of_child hchild
    omega

theorem branched (h : s.Descends v lp above node) : ∀ visit ∈ above, s.Branched visit := by
  induction h with
  | root => exact fun _ hvisit => absurd hvisit List.not_mem_nil
  | child _ _ hchild ih =>
    exact List.forall_mem_cons.2 ⟨branched_of_child hchild, ih⟩

end Descends

/-- Every search in any order comes to its nodes by a descent through its visits. -/
theorem Proceeds.descends {s : Search α n} {v : Verbosity} {lp : LinearProgram α n}
    {reached : Progress α n} (hrun : s.Proceeds v ⟨{.root lp}, {}, []⟩ reached) :
    ∀ node ∈ reached.pending, ∃ above, above.Sublist reached.visits ∧
      s.Descends v lp above node := by
  induction hrun with
  | refl =>
    intro node hnode
    rw [Multiset.mem_singleton.1 hnode]
    exact ⟨[], .slnil, .root⟩
  | tail _ hadvance ih =>
    cases hadvance with
    | visit node rest state visits =>
      intro other hother
      rcases Multiset.mem_add.1 hother with hother | hother
      · obtain ⟨above, hsublist, hnode⟩ := ih node (Multiset.mem_cons_self _ _)
        exact ⟨_, hsublist.cons_cons _, hnode.child state (Multiset.mem_coe.1 hother)⟩
      · obtain ⟨above, hsublist, hnode⟩ := ih other (Multiset.mem_cons_of_mem hother)
        exact ⟨above, hsublist.cons _, hnode⟩
    | discard node rest state visits =>
      intro other hother
      exact ih other (Multiset.mem_cons_of_mem hother)

end Search

/-! ## Eliminated variables -/

theorem zip_concat {β γ : Type} {l : List β} {r : List γ} {b : β} (hb : l[r.length]? = some b)
    (c : γ) : l.zip (r ++ [c]) = l.zip r ++ [(b, c)] := by
  induction r generalizing l with
  | nil =>
    obtain _ | ⟨b', rest⟩ := l
    · cases hb
    · cases hb
      rw [List.nil_append, List.zip_cons_cons, List.zip_nil_right, List.zip_nil_right,
        List.nil_append]
  | cons c' r ih =>
    obtain _ | ⟨b', rest⟩ := l
    · cases hb
    · exact congrArg ((b', c') :: ·) (ih hb)

namespace MixedIntegerProgram

/-- The binary variables that these sides eliminate, each with its value, from the last level up. -/
def fixingsOn [Scalar α] (p : MixedIntegerProgram α n) (sides : List Side) : List (Nat × α) :=
  (((p.branchingOrder.zip sides).take p.binaries.members.length).map
    fun (w, side) => (w.val, side.fixed)).reverse

theorem fixingsOn_nil [Scalar α] (p : MixedIntegerProgram α n) :
    p.fixingsOn [] = ([] : List (Nat × α)) := by
  rw [fixingsOn, List.zip_nil_right, List.take_nil, List.map_nil, List.reverse_nil]

section Levels

variable [Scalar α] {p : MixedIntegerProgram α n} {sides : List Side} {w : Fin n}
  (hw : p.branchingOrder[sides.length]? = some w)

include hw

omit [Scalar α] in
theorem length_zip_sides : (p.branchingOrder.zip sides).length = sides.length := by
  have := (List.getElem?_eq_some_iff.1 hw).1
  rw [List.length_zip]
  omega

theorem fixingsOn_binary (hlevel : sides.length < p.binaries.members.length) (side : Side) :
    p.fixingsOn (sides ++ [side]) = (w.val, side.fixed) :: p.fixingsOn sides := by
  have hlength := length_zip_sides hw
  have hall : ((p.branchingOrder.zip sides) ++ [(w, side)]).length ≤ p.binaries.members.length := by
    rw [List.length_append, hlength]
    exact hlevel
  rw [fixingsOn, zip_concat hw, List.take_of_length_le hall, List.map_append, List.reverse_append,
    fixingsOn, List.take_of_length_le (by omega)]
  rfl

theorem fixingsOn_integer (hlevel : p.binaries.members.length ≤ sides.length) (side : Side) :
    p.fixingsOn (sides ++ [side]) = p.fixingsOn sides := by
  have hlength := length_zip_sides hw
  rw [fixingsOn, zip_concat hw, List.take_append_of_le_length (hlength ▸ hlevel), fixingsOn]

end Levels

end MixedIntegerProgram

/-! ## The invariant of a descent -/

variable [Integral α] [Denoting α]

/-- The bound that a visit gave to its child on a side holds at the point; only integer levels give
one, around the value of their variable. -/
def Visit.Bounds (visit : Visit α n) (side : Side) (z : Fin n → Rat) : Prop :=
  ∀ (w : Fin n) value, visit.verdict = .branchedInteger w.val value →
    side.Within (toRat value) (z w)

namespace Visit

variable {visit : Visit α n} {side : Side} {z : Fin n → Rat}

theorem bounds_of_binary {index : Nat} (h : visit.verdict = .branchedBinary index) :
    visit.Bounds side z := by
  intro w value hvalue
  rw [h] at hvalue
  cases hvalue

theorem bounds_iff_within {w : Fin n} {f : α} (h : visit.verdict = .branchedInteger w.val f) :
    visit.Bounds side z ↔ side.Within (toRat f) (z w) := by
  constructor
  · intro hbounds
    exact hbounds w f h
  · intro hwithin u value hvalue
    obtain ⟨hu, rfl⟩ := Verdict.branchedInteger.inj (h.symm.trans hvalue)
    rw [← Fin.ext hu]
    exact hwithin

end Visit

namespace MixedIntegerProgram

structure MeansPath (p : MixedIntegerProgram α n) (above : List (Visit α n)) (node : Node α n)
    (lp : LinearProgram α n) : Prop where
  fixings : node.fixings = p.fixingsOn node.sides
  nrConstraints :
    lp.nrConstraints = p.root.nrConstraints + (node.level - p.binaries.members.length)
  satisfies : ∀ z, node.Agrees z →
    (lp.read.Satisfies z ↔
      p.root.read.Satisfies z ∧ ∀ step ∈ above.zip node.path, step.1.Bounds step.2.side z)
  value : ∀ z, node.Agrees z → lp.read.value z = p.root.read.value z

namespace MeansPath

variable {p : MixedIntegerProgram α n} {above : List (Visit α n)} {visit : Visit α n}
  {node : Node α n} {lp : LinearProgram α n} {w : Fin n}

theorem root (p : MixedIntegerProgram α n) : p.MeansPath [] (.root p.root) p.root where
  fixings := p.fixingsOn_nil.symm
  nrConstraints := by
    rw [show (Node.root p.root).level = 0 from rfl, Nat.zero_sub, Nat.add_zero]
  satisfies _ _ := ⟨fun h => ⟨h, fun _ hstep => absurd hstep List.not_mem_nil⟩, fun h => h.1⟩
  value _ _ := rfl

theorem binaryChild (h : p.MeansPath above node lp)
    (hw : p.branchingOrder[node.level]? = some w)
    (hlevel : node.level < p.binaries.members.length)
    (hverdict : visit.verdict = .branchedBinary w.val) {side : Side}
    (hexact : lp.FixesExactly w side.fixed) :
    p.MeansPath (visit :: above)
      (node.child ⟨side, some (w.val, side.fixed)⟩ (lp.fix w side.fixed))
      (lp.fix w side.fixed) where
  fixings := by
    rw [Node.sides_child, fixingsOn_binary (node.length_sides ▸ hw) (node.length_sides ▸ hlevel),
      ← h.fixings]
    rfl
  nrConstraints := by
    have hlength : (lp.fix w side.fixed).nrConstraints = lp.nrConstraints := List.length_map _
    have hnode : (node.child ⟨side, some (w.val, side.fixed)⟩ (lp.fix w side.fixed)).level =
      node.level + 1 := rfl
    rw [hlength, h.nrConstraints, hnode]
    omega
  satisfies z hz := by
    obtain ⟨hwz, hagrees⟩ := Node.agrees_child.1 hz
    rw [LinearProgram.satisfies_fix hexact hwz, h.satisfies z hagrees]
    refine and_congr_right fun _ => ?_
    show _ ↔ ∀ step ∈ (visit, _) :: above.zip node.path, _
    rw [List.forall_mem_cons, and_iff_right (Visit.bounds_of_binary hverdict)]
  value z hz := by
    obtain ⟨hwz, hagrees⟩ := Node.agrees_child.1 hz
    rw [LinearProgram.value_fix hexact hwz, h.value z hagrees]

theorem integerChild (h : p.MeansPath above node lp)
    (hw : p.branchingOrder[node.level]? = some w)
    (hlevel : p.binaries.members.length ≤ node.level) {f : α}
    (hverdict : visit.verdict = .branchedInteger w.val f) (hnumber : IsNumber f) (side : Side) :
    p.MeansPath (visit :: above)
      (node.child ⟨side, none⟩ (lp.addBound w side.bound.relation (side.rounded f)))
      (lp.addBound w side.bound.relation (side.rounded f)) where
  fixings := by
    rw [Node.sides_child, fixingsOn_integer (node.length_sides ▸ hw) (node.length_sides ▸ hlevel),
      ← h.fixings]
    rfl
  nrConstraints := by
    have hlength : (lp.addBound w side.bound.relation (side.rounded f)).nrConstraints =
      lp.nrConstraints + 1 := List.length_append
    have hnode : (node.child ⟨side, none⟩
      (lp.addBound w side.bound.relation (side.rounded f))).level = node.level + 1 := rfl
    rw [hlength, h.nrConstraints, hnode]
    omega
  satisfies z hz := by
    rw [LinearProgram.satisfies_addBound, h.satisfies z hz, Side.holds_bound hnumber,
      ← Visit.bounds_iff_within hverdict]
    show _ ↔ _ ∧ ∀ step ∈ (visit, _) :: above.zip node.path, _
    rw [List.forall_mem_cons, and_assoc]
    exact and_congr_right fun _ => and_comm
  value z hz := h.value z hz

theorem takeProblem (h : p.MeansPath above node lp) : p.MeansPath above node.takeProblem.2 lp :=
  ⟨h.fixings, h.nrConstraints, h.satisfies, h.value⟩

end MeansPath

theorem meansPath_of_descends {p : MixedIntegerProgram α n}
    {relax : LinearProgram α n → Solution α × List Message} {v : Verbosity}
    {above : List (Visit α n)} {node : Node α n}
    (hnode : (p.search relax).Descends v p.root above node)
    (hexact : ∀ visit ∈ above, visit.Unrounded) :
    ∃ lp, node.problem = some lp ∧ p.MeansPath above node lp := by
  induction hnode with
  | root => exact ⟨_, rfl, .root p⟩
  | @child above node child state _ hchild ih =>
    obtain ⟨hvisit, habove⟩ := List.forall_mem_cons.1 hexact
    obtain ⟨lp, hlp, hmeans⟩ := ih habove
    have hproblem := (problem_evaluate (p.search relax) v node state).trans hlp
    have hmeans := hmeans.takeProblem
    rw [← node_evaluate (p.search relax) v node state] at hmeans
    cases branched_of_child hchild with
    | binary hlp' hindex hbinary hverdict hchildren =>
      obtain rfl := Option.some.inj (hproblem.symm.trans hlp')
      obtain ⟨side, rfl⟩ := mem_binaryChildren.1 (hchildren ▸ hchild)
      exact ⟨_, rfl, hmeans.binaryChild (getElem?_order.1 hindex) hbinary hverdict
        (hvisit.fixes _ hproblem _ hverdict side)⟩
    | integer hlp' hindex hinteger hvalue hverdict hchildren =>
      obtain rfl := Option.some.inj (hproblem.symm.trans hlp')
      obtain ⟨side, rfl⟩ := mem_integerChildren.1 (hchildren ▸ hchild)
      exact ⟨_, rfl, hmeans.integerChild (getElem?_order.1 hindex) hinteger hverdict
        (hvisit.isNumber _ _ hverdict) side⟩

/-- What the problem of a node means.  The levels above the node branched on the variables of the
branching order, one after the other.  The binary ones eliminated their variables, with zero for a
left and one for a right step; the integer ones added a row each.  At points that agree with the
eliminated variables the rows say what those of the root say and what the bounds on the path add,
and the objective value is that of the root. -/
theorem problem_means_path (p : MixedIntegerProgram α n)
    (relax : LinearProgram α n → Solution α × List Message) (v : Verbosity)
    {above : List (Visit α n)} {node : Node α n}
    (hnode : (p.search relax).Descends v p.root above node)
    (hexact : ∀ visit ∈ above, visit.Unrounded) :
    p.branchingOrder.Nodup ∧ node.level ≤ p.branchingOrder.length ∧
      above.reverse.map (·.node.level) = List.range node.level ∧
      (∀ visit ∈ above, (p.search relax).Branched visit) ∧
      node.fixings = p.fixingsOn node.sides ∧
      ∃ lp, node.problem = some lp ∧
        lp.nrConstraints = p.root.nrConstraints + (node.level - p.binaries.members.length) ∧
        ∀ z, node.Agrees z →
          (lp.read.Satisfies z ↔
            p.root.read.Satisfies z ∧ ∀ step ∈ above.zip node.path, step.1.Bounds step.2.side z) ∧
          lp.read.value z = p.root.read.value z := by
  obtain ⟨lp, hlp, hmeans⟩ := meansPath_of_descends hnode hexact
  have hlevel : node.level ≤ p.branchingOrder.length := hnode.level_le.trans_eq (List.length_map _)
  exact ⟨p.nodup_branchingOrder, hlevel, hnode.levels, hnode.branched, hmeans.fixings, lp, hlp,
    hmeans.nrConstraints, fun z hz => ⟨hmeans.satisfies z hz, hmeans.value z hz⟩⟩

def mixedVisit : Visit Float 2 :=
  (mixedProgram.search rationalRelax).evaluate none (.root mixedProgram.root) {}

set_option maxRecDepth 10000 in
theorem length_mixedVisit : mixedVisit.children.length = 2 := by decide +kernel

def mixedRightVisit : Visit Float 2 :=
  (mixedProgram.search rationalRelax).evaluate none
    (mixedVisit.children.get ⟨1, by rw [length_mixedVisit]; decide⟩) mixedVisit.state

set_option maxRecDepth 10000 in
theorem length_mixedRightVisit : mixedRightVisit.children.length = 2 := by decide +kernel

/-- Its left child, where the second variable is at most the floor of 1/2. -/
def mixedNode : Node Float 2 :=
  mixedRightVisit.children.get ⟨0, by rw [length_mixedRightVisit]; decide⟩

set_option maxRecDepth 10000 in
/-- The way to the answer eliminates the first variable and bounds the second one by zero. -/
theorem mixedNode_means_path : ∃ above lp,
    (mixedProgram.search rationalRelax).Descends none mixedProgram.root above mixedNode ∧
      (∀ visit ∈ above, visit.Unrounded) ∧
      mixedNode.problem = some lp ∧ mixedNode.fixings = [(0, 1)] ∧ lp.nrConstraints = 3 ∧
      ∀ z, z 0 = 1 → (lp.read.Satisfies z ↔ mixedProgram.root.read.Satisfies z ∧ z 1 ≤ 0) := by
  have hverdict : mixedVisit.verdict = .branchedBinary 0 := by decide +kernel
  have hright : mixedRightVisit.verdict = .branchedInteger 1 0.5 := by decide +kernel
  have hfixes : ∀ side : Side, mixedProgram.root.FixesExactly 0 side.fixed := by
    rintro (_ | _) <;> decide +kernel
  have hexact : mixedVisit.Unrounded := Visit.unrounded_of_binary (w := 0) rfl hverdict hfixes
  have hexactRight : mixedRightVisit.Unrounded := Visit.unrounded_of_integer hright (by decide)
  have hdescends : (mixedProgram.search rationalRelax).Descends none mixedProgram.root
      [mixedRightVisit, mixedVisit] mixedNode :=
    .child _ (.child {} .root (List.get_mem _ _)) (List.get_mem _ _)
  have hunrounded : ∀ visit ∈ [mixedRightVisit, mixedVisit], visit.Unrounded :=
    List.forall_mem_cons.2 ⟨hexactRight, List.forall_mem_singleton.2 hexact⟩
  obtain ⟨-, -, -, -, -, lp, hlp, hrows, hmeans⟩ :=
    problem_means_path mixedProgram rationalRelax none hdescends hunrounded
  have hfixings : mixedNode.fixings = [(0, 1)] := by decide +kernel
  have hnrConstraints : mixedProgram.root.nrConstraints +
      (mixedNode.level - mixedProgram.binaries.members.length) = 3 := by decide +kernel
  have hsides : mixedNode.path.map (·.side) = [.left, .right] := by decide +kernel
  obtain ⟨last, path, hpath, hlast, hrest⟩ := List.map_eq_cons_iff.1 hsides
  obtain ⟨first, rfl, -⟩ := List.map_eq_singleton_iff.1 hrest
  refine ⟨_, lp, hdescends, hunrounded, hlp, hfixings, hrows.trans hnrConstraints, fun z hz => ?_⟩
  have hagrees : mixedNode.Agrees z := by
    intro w value hw
    rw [hfixings] at hw
    obtain ⟨hindex, rfl⟩ := Prod.mk.inj (List.mem_singleton.1 hw)
    obtain rfl : w = 0 := Fin.ext hindex
    exact hz.trans toRat_one.symm
  have hfloor : ⌊toRat (0.5 : Float)⌋ = 0 := by decide +kernel
  have hbound : mixedRightVisit.Bounds .left z ↔ z 1 ≤ 0 := by
    rw [Visit.bounds_iff_within (w := 1) hright, Side.Within, hfloor, Int.cast_zero]
  rw [(hmeans z hagrees).1, hpath]
  show _ ∧ (∀ step ∈ [(mixedRightVisit, last), (mixedVisit, first)], _) ↔ _
  rw [List.forall_mem_cons, List.forall_mem_singleton, hlast, hbound,
    and_iff_left (Visit.bounds_of_binary hverdict)]

end MixedIntegerProgram

end LinProg
