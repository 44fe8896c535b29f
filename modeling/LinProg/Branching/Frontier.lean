/-!
# Frontiers

The nodes that were made but not visited yet.  The order in which they come out decides how the tree
is walked; nothing else depends on it.
-/

namespace LinProg

/-- A pool `φ` of pending nodes `ν`. -/
class Frontier (φ : Type) (ν : outParam Type) where
  empty : φ
  push : φ → ν → φ
  pop? : φ → Option (ν × φ)

/-- Last in, first out: few nodes are pending, and integral solutions are found early. -/
structure DepthFirst (ν : Type) where
  stack : List ν

instance {ν : Type} : Frontier (DepthFirst ν) ν where
  empty := ⟨[]⟩
  push f node := ⟨node :: f.stack⟩
  pop?
    | ⟨[]⟩ => none
    | ⟨node :: rest⟩ => some (node, ⟨rest⟩)

/-- First in, first out: `front` holds the next nodes, `back` the latest ones, latest first. -/
structure BreadthFirst (ν : Type) where
  front : List ν
  back : List ν

instance {ν : Type} : Frontier (BreadthFirst ν) ν where
  empty := ⟨[], []⟩
  push f node := ⟨f.front, node :: f.back⟩
  pop?
    | ⟨node :: rest, back⟩ => some (node, ⟨rest, back⟩)
    | ⟨[], back⟩ =>
      match back.reverse with
      | [] => none
      | node :: rest => some (node, ⟨rest, []⟩)

/-- Adds nodes in order. -/
def Frontier.pushAll {φ ν : Type} [Frontier φ ν] (f : φ) (nodes : List ν) : φ :=
  nodes.foldl Frontier.push f

end LinProg
