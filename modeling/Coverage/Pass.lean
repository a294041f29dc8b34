import Coverage.Pass.Visit

/-!
# A pass over a tree

A pass first checks that the tree has all the places it needs, then walks it, and last gives every node
that can carry a place the numbers it still lacks.
-/

namespace Coverage

open Syntax

/-- What a finished pass gives. -/
structure Instrumented where
  tree : Node
  record : Metadata Kind
  marks : Marks
  /-- The next fresh identity. -/
  next : NodeId
  notes : List Note

/-- What a stopped pass leaves behind. -/
structure Stopped where
  fault : Fault
  tree : Node
  marks : Marks
  next : NodeId

namespace Pass

/-- The state in which a pass starts. -/
def start (plan : Plan) (marks : Marks) (next : NodeId) : State where
  record := { filename := plan.filename }
  marks := marks
  next := next

/-- What a stopped walk leaves: nodes that did not get into the tree are gone, and so are their marks. -/
def stopped (marks : Marks) (fault : Fault) (left : Node) (s : State) : Stopped where
  fault := fault
  tree := left
  marks := s.marks.retain fun i ↦ marks.contains i || left.ids.contains i
  next := s.next

def finish (tree : Node) (s : State) : Instrumented where
  tree := tree.fillPlaces .start
  record := s.record
  marks := s.marks
  next := s.next
  notes := s.notes ++ [.finished s.record.entries.length s.record.groups.length]

end Pass

/-- Puts counters into a tree. The identities from `next` on are not in use. -/
def instrument (plan : Plan) (marks : Marks) (next : NodeId) (tree : Node) : Except Stopped Instrumented :=
  match checkPlaces plan marks tree with
  | .error cause => .error { fault := .unlocated cause, tree, marks, next }
  | .ok () =>
    match (Pass.visit plan tree).run (Pass.start plan marks next) with
    | (.error (fault, left), s) => .error (Pass.stopped marks fault left s)
    | (.ok tree, s) => .ok (Pass.finish tree s)

end Coverage
