import Coverage.Text.Lines

/-!
# Excluded lines

The numbers of the lines in which something is found. Without a text, or with nothing to look for, there are none.
-/

namespace Coverage

/-- The numbers, from `first` on, of the lines in which `found` holds. -/
def matchingLines (found : List Char → Bool) : Nat → List (List Char) → List Nat
  | _, [] => []
  | n, line :: lines =>
    if found line then n :: matchingLines found (n + 1) lines else matchingLines found (n + 1) lines

def excludedLines (source : Option String) (found : Option (List Char → Bool)) : List Nat :=
  match source, found with
  | some source, some found => matchingLines found 1 (Text.lines source)
  | _, _ => []

end Coverage
