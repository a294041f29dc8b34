import Coverage.Marks
import Coverage.Pass.Probe

/-!
# The state of a pass

A pass builds a record, marks nodes, makes nodes with fresh identities and leaves remarks. A step of a pass
that is stopped says why, and what the part of the tree it worked on is left as.
-/

namespace Coverage.Pass

open Syntax

/-- What a pass carries along. -/
structure State where
  record : Metadata Kind
  marks : Marks
  /-- The next fresh identity. -/
  next : NodeId
  notes : List Note := []

/-- A step that can be stopped. -/
abbrev Step (α : Type) := ExceptT Fault (StateM State) α

/-- A step that works on a part of the tree: `ε` is what the part is left as when the step is stopped. -/
abbrev Visit (ε α : Type) := ExceptT (Fault × ε) (StateM State) α

/-- A visit of a part, as a visit of the whole that `f` puts the part back into. -/
def within {ε ε' α : Type} (f : ε → ε') (x : Visit ε α) : Visit ε' α :=
  ExceptT.adapt (fun e ↦ (e.1, f e.2)) x

/-- A step that leaves the part it concerns as `left`. -/
def leaving {ε α : Type} (left : ε) (x : Step α) : Visit ε α := ExceptT.adapt (fun e ↦ (e, left)) x

def note (n : Note) : StateM State Unit := modify fun s ↦ { s with notes := s.notes ++ [n] }

def mark (i : NodeId) : StateM State Unit := modify fun s ↦ { s with marks := s.marks.mark i }

def isMarked (n : Node) : StateM State Bool := return (← get).marks.holds n

/-- Builds and marks `size` nodes with fresh identities. -/
def inject (size : Nat) (build : NodeId → Node) : StateM State Node :=
  modifyGet fun s ↦
    (build s.next, { s with marks := s.marks.markRange s.next size, next := s.next + size })

/-- Turns a missing span into a fault. -/
def located {α : Type} : Except Unlocated α → Step α
  | .ok a => pure a
  | .error cause => throw (.unlocated cause)

/-- Whether a body starts with a docstring. A body has a first statement. -/
def firstIsDocstring : List Node → Step Bool
  | [] => throw .emptyList
  | s :: _ => return s.isDocstring

def lastIsDefault (cases : List Node) : Step Bool :=
  match cases.getLast? with
  | none => throw .emptyList
  | some c => return c.isDefaultCase

/-- Remarks that a statement is left alone, which takes its line. -/
def noteExcluded : Node → Step Unit
  | .gap => return
  | .mk _ c p _ =>
    match p.line with
    | some line => note (.excluded c line)
    | none => throw (.noLine c)

def markNode : Node → StateM State Unit
  | .gap => return
  | .mk i _ _ _ => mark i

/-! ## Registration -/

/-- Adds an entry to the record; without a key if the key is taken. -/
def register (e : Entry Kind) : StateM State (Option Key) := do
  let (added, record) := (← get).record.add e
  modify fun s ↦ { s with record }
  if added then return some e.key
  note (.refused e.key)
  return none

def registerUnit (plan : Plan) (kind : Kind) (n : Node) (name : Option String) : Step (Option Key) := do
  if plan.counts kind then
    let span ← located (locate n)
    register { key := keyOf kind span, kind, span, name }
  else return none

def registerArms (group : Int) : Nat → List Span → StateM State (List (Option Key))
  | _, [] => return []
  | i, span :: spans => do
    let key ← register { key := keyOf .branch span, kind := .branch, span, group, arm := (i : Int) }
    return key :: (← registerArms group (i + 1) spans)

/-- A group and one entry for each of its arms, if branches are counted. -/
def registerGroup (plan : Plan) (construct : Construct) (n : Node) (arms : List Span) :
    Step (List (Option Key)) := do
  if plan.counts .branch then
    let span ← located (locate n)
    match (← get).record.addGroup construct arms.length span with
    | none => throw .noArms
    | some (group, record) =>
      modify fun s ↦ { s with record }
      registerArms group.id 0 arms
  else return arms.map fun _ ↦ none

/-! ## Injection -/

def counter (plan : Plan) (key : Key) (place : Place) : StateM State Node :=
  inject Probe.counterSize (Probe.counter plan key place)

/-- The counter before a statement, if there is a key. -/
def countBefore (plan : Plan) (key : Option Key) (place : Place) : StateM State (Option Node) :=
  match key with
  | none => return none
  | some key => return some (← counter plan key place)

/-- The expression, counted if there is a key. -/
def wrap (plan : Plan) (key : Option Key) (e : Node) : StateM State Node :=
  match key with
  | none => return e
  | some key => inject Probe.wrapperSize (Probe.wrapper plan key e)

/-- The block, with a counter in front if there is a key. -/
def prepend (plan : Plan) (key : Option Key) (block : List Node) : StateM State (List Node) :=
  match key, block with
  | some key, first :: _ => return (← counter plan key first.place) :: block
  | _, _ => return block

end Coverage.Pass
