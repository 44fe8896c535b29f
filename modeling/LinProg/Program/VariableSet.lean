import LinProg.Program.Inconsistency

/-!
# Sets of variables

A `VariableSet n` lists some of `n` variables in increasing order, each once.  `ofIndices?` reads it
from indices that are counted from 1.
-/

namespace LinProg

structure VariableSet (n : Nat) where
  members : List (Fin n)
  increasing : members.Pairwise (· < ·)

namespace VariableSet

variable {n : Nat}

/-- Puts a variable in its place, unless it is there already. -/
def place (v : Fin n) : List (Fin n) → List (Fin n)
  | [] => [v]
  | w :: rest => if v < w then v :: w :: rest else if v = w then w :: rest else w :: place v rest

theorem mem_place {v w : Fin n} : ∀ {l : List (Fin n)}, w ∈ place v l ↔ w = v ∨ w ∈ l
  | [] => by simp [place]
  | u :: rest => by
    have ih := mem_place (v := v) (w := w) (l := rest)
    grind [place]

theorem place_increasing (v : Fin n) :
    ∀ {l : List (Fin n)}, l.Pairwise (· < ·) → (place v l).Pairwise (· < ·)
  | [], _ => by simp [place]
  | w :: rest, h => by
    have ih := place_increasing v (List.pairwise_cons.1 h).2
    have hmem := @mem_place n v
    grind [place, List.pairwise_cons]

def empty : VariableSet n := ⟨[], .nil⟩

def insert (v : Fin n) (s : VariableSet n) : VariableSet n :=
  ⟨place v s.members, place_increasing v s.increasing⟩

def ofList (l : List (Fin n)) : VariableSet n := l.foldr insert empty

/-- The variable with an index counted from 1. -/
def ofIndex? (index : Nat) : Option (Fin n) :=
  if h : 0 < index ∧ index ≤ n then some ⟨index - 1, by omega⟩ else none

/-- The set of the variables with the given indices, which are counted from 1. -/
def ofIndices? (kind : VariableKind) (indices : List Nat) :
    Except Inconsistency (VariableSet n) := do
  let members ← indices.mapM fun index =>
    match ofIndex? index with
    | some v => .ok v
    | none => .error (.variableIndex kind index n)
  return ofList members

end VariableSet

end LinProg
