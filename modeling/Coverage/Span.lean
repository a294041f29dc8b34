import Coverage.Syntax.Node

/-!
# Source ranges and keys

A span is the source range of a counted unit. Its key is the letter of the unit's kind followed by the
text of the span, so two units share a key exactly when they have the same kind and the same span.
-/

namespace Coverage

open Syntax

/-- A source range: lines from 1, columns from 0, the end column not included. -/
structure Span where
  startLine : Int
  startColumn : Int
  endLine : Int
  endColumn : Int
  deriving DecidableEq, Repr

namespace Span

/-- Written `3:4-3:10`. -/
def text (s : Span) : String :=
  toString s.startLine ++ ":" ++ toString s.startColumn ++ "-" ++
    toString s.endLine ++ ":" ++ toString s.endColumn

/-- From the start of `first` to the end of `last`. -/
def join (first last : Span) : Span :=
  ⟨first.startLine, first.startColumn, last.endLine, last.endColumn⟩

end Span

/-- Kinds of counted units. -/
inductive Kind where
  | statement
  | branch
  | function
  deriving DecidableEq, Repr

namespace Kind

def all : List Kind := [statement, branch, function]

def name : Kind → String
  | statement => "statement"
  | branch => "branch"
  | function => "function"

def letter : Kind → String
  | statement => "s"
  | branch => "b"
  | function => "f"

def ofName? (name : String) : Option Kind := all.find? (·.name == name)

end Kind

/-- The name of a counter within its file. -/
abbrev Key := String

/-- The key of a unit, as `s3:4-3:10`. -/
def keyOf (kind : Kind) (span : Span) : Key := kind.letter ++ span.text

/-- Why no span can be given. -/
inductive Unlocated where
  | node (cls : NodeClass)
  /-- There is no node. -/
  | gap
  | emptyBlock
  deriving DecidableEq, Repr

/-- The class of the node without a span. -/
def Unlocated.nodeType? : Unlocated → Option String
  | node cls => some cls.name
  | gap => some "NoneType"
  | emptyBlock => none

def Unlocated.message : Unlocated → String
  | node cls => "Node " ++ cls.name ++ " has no source location"
  | gap => "Node NoneType has no source location"
  | emptyBlock => "Cannot compute the location of an empty block"

def Syntax.Place.span? : Place → Option Span
  | ⟨some l, some c, some el, some ec⟩ => some ⟨l, c, el, ec⟩
  | _ => none

def locate : Node → Except Unlocated Span
  | .gap => .error .gap
  | .mk _ cls place _ =>
    match place.span? with
    | some s => .ok s
    | none => .error (.node cls)

def locateAll (ns : List Node) : Except Unlocated Span :=
  match ns.head?, ns.getLast? with
  | some first, some last => do return (← locate first).join (← locate last)
  | _, _ => .error .emptyBlock

end Coverage
