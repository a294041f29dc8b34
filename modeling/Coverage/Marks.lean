import Coverage.Syntax.Node

/-!
# Marked nodes

A table of the nodes that a pass has dealt with or made, by identity. A pass leaves marked nodes alone.
-/

namespace Coverage

open Syntax

/-- A set of node identities. -/
structure Marks where
  ids : List NodeId := []
  deriving DecidableEq, Repr

namespace Marks

instance : Inhabited Marks := ⟨{}⟩

def contains (m : Marks) (i : NodeId) : Bool := m.ids.contains i

def mark (m : Marks) (i : NodeId) : Marks := if m.contains i then m else ⟨i :: m.ids⟩

/-- Marks `size` consecutive identities. -/
def markRange (m : Marks) (first size : Nat) : Marks := (List.range' first size).foldl mark m

def size (m : Marks) : Nat := m.ids.length

/-- Keeps the marks of the nodes that satisfy `p`. -/
def retain (m : Marks) (p : NodeId → Bool) : Marks := ⟨m.ids.filter p⟩

/-- Marks disappear with their trees. -/
def outlive (m : Marks) (trees : List Node) : Marks :=
  let alive := trees.flatMap Node.ids
  m.retain alive.contains

def holds (m : Marks) : Node → Bool
  | .gap => false
  | .mk i _ _ _ => m.contains i

end Marks

end Coverage
