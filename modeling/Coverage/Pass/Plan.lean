import Coverage.Ledger.Registry
import Coverage.Metadata
import Coverage.Syntax.Predicates

/-!
# What a pass is asked to do, and what can stop it
-/

namespace Coverage

open Syntax

/-- The settings of a pass over one file. -/
structure Plan where
  /-- The name the counters are recorded under. -/
  filename : String
  /-- The name by which injected code reaches the counters. -/
  globalName : String := usualName
  /-- Which kinds of units are counted. -/
  counts : Kind → Bool := fun _ ↦ true
  /-- Source lines whose statements are left alone. -/
  excluded : List Nat := []

namespace Plan

def excludesLine (plan : Plan) (line : Option Int) : Bool :=
  match line with
  | some n => plan.excluded.any fun k ↦ (k : Int) == n
  | none => false

/-- A statement is left alone if it or one of its decorators starts on an excluded line. -/
def excludes (plan : Plan) (n : Node) : Bool :=
  plan.excludesLine n.place.line || n.decorators.any fun d ↦ plan.excludesLine d.place.line

end Plan

/-- What stops a pass. -/
inductive Fault where
  /-- A span was needed and there is none. -/
  | unlocated (cause : Unlocated)
  /-- A function without a body, or a match without cases. -/
  | emptyList
  /-- An excluded statement that has no line of its own. -/
  | noLine (cls : NodeClass)
  /-- A decision point without arms. -/
  | noArms
  deriving DecidableEq, Repr

/-- A remark of a pass. -/
inductive Note where
  | excluded (cls : NodeClass) (line : Int)
  | refused (key : Key)
  | finished (entries groups : Nat)
  deriving DecidableEq, Repr

/-- The text of a remark on a file. -/
def Note.text (filename : String) : Note → String
  | excluded cls line => "Excluded " ++ cls.name ++ " at line " ++ toString line
  | refused key => "Key " ++ key ++ " already registered in " ++ filename ++ ", not counting again"
  | finished entries groups =>
    "Instrumented " ++ filename ++ ": " ++ toString entries ++ " entries, " ++ toString groups ++ " branch groups"

end Coverage
