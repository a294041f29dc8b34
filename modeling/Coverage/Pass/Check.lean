import Coverage.Marks
import Coverage.Pass.Plan

/-!
# The check before a pass

Every node that a pass could need a span of must have one. The check walks the tree in preorder and stops
at the first node that lacks a number of its place. Marked nodes, excluded statements and annotations are
not walked into.
-/

namespace Coverage

open Syntax

/-- Fields that no walk enters: annotations are not evaluated where they stand. -/
def isSkippedField (name : String) : Bool := name == "annotation" || name == "returns"

mutual
def checkPlaces (plan : Plan) (marks : Marks) : Node → Except Unlocated Unit
  | .gap => .ok ()
  | .mk i c p fs =>
    if marks.contains i || (c.isStatement && plan.excludes (.mk i c p fs)) then .ok ()
    else if c.role.required && p.span?.isNone then .error (.node c)
    else checkFields plan marks c.fieldNames fs

def checkFields (plan : Plan) (marks : Marks) : List String → List Field → Except Unlocated Unit
  | name :: names, f :: fs => do
    if !isSkippedField name then checkField plan marks f
    checkFields plan marks names fs
  | _, _ => .ok ()

def checkField (plan : Plan) (marks : Marks) : Field → Except Unlocated Unit
  | .child n => checkPlaces plan marks n
  | .many ns => checkNodes plan marks ns
  | _ => .ok ()

def checkNodes (plan : Plan) (marks : Marks) : List Node → Except Unlocated Unit
  | [] => .ok ()
  | n :: ns => do
    checkPlaces plan marks n
    checkNodes plan marks ns
end

end Coverage
