/-!
# Lines

Two ways to cut a text into lines: at every character that Unicode regards as a line boundary, and at the
line ends of the grammar. In both a carriage return and the line feed after it are one end, and an end at
the end of the text starts no further line.
-/

namespace Coverage.Text

/-- A carriage return before a line feed is dropped. -/
def joinReturns : List Char → List Char
  | [] => []
  | '\r' :: '\n' :: cs => '\n' :: joinReturns cs
  | c :: cs => c :: joinReturns cs

/-- Adds a character in front of the first line. -/
def pushLine (c : Char) : List (List Char) → List (List Char)
  | [] => [[c]]
  | l :: ls => (c :: l) :: ls

/-- Cuts after the characters that satisfy `isEnd`, and drops those. -/
def cutLines (isEnd : Char → Bool) : List Char → List (List Char)
  | [] => []
  | c :: cs => if isEnd c then [] :: cutLines isEnd cs else pushLine c (cutLines isEnd cs)

/-- Line boundaries of Unicode. -/
def isBoundary (c : Char) : Bool :=
  c == '\n' || c == '\r' || c == '\x0b' || c == '\x0c' || c == '\x1c' || c == '\x1d' || c == '\x1e' ||
    c == '\x85' || c == '\u2028' || c == '\u2029'

/-- Line ends of the grammar. -/
def isNewline (c : Char) : Bool := c == '\n' || c == '\r'

def lines (s : String) : List (List Char) := cutLines isBoundary (joinReturns s.toList)

/-- The lines as positions in a syntax tree count them. -/
def sourceLines (s : String) : List (List Char) := cutLines isNewline (joinReturns s.toList)

/-- Every line end of the grammar as a line feed. -/
def unifyNewlines (s : String) : String :=
  String.ofList ((joinReturns s.toList).map fun c ↦ if c = '\r' then '\n' else c)

end Coverage.Text
