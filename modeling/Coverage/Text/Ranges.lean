/-!
# Character ranges

A class of characters is given by its ranges of code points, in increasing order and both ends included, or, where it
has many, by the lengths of its runs.
-/

namespace Coverage.Text

/-- The range that holds a character. -/
def range? (ranges : Array (Nat × Nat)) (c : Char) : Option (Nat × Nat) :=
  ranges.find? fun r ↦ r.1 ≤ c.toNat && c.toNat ≤ r.2

def inRanges (ranges : Array (Nat × Nat)) (c : Char) : Bool := (range? ranges c).isSome

/-- Whether a code point is in a class. The lengths are of the runs outside and inside the class in turn, from the first
code point on. -/
def inRunsFrom : List Nat → Nat → Bool
  | outside :: inside :: runs, n =>
    if n < outside then false
    else if n < outside + inside then true
    else inRunsFrom runs (n - (outside + inside))
  | _, _ => false

def inRuns (runs : List Nat) (c : Char) : Bool := inRunsFrom runs c.toNat

end Coverage.Text
