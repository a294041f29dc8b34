import Coverage.Text.Blank
import Coverage.Text.Width

/-!
# Wrapping

Long lines are broken between words. A word keeps the blanks behind it, and a word that is wider than a line
is broken where the line is full.
-/

namespace Coverage.Text

/-- Cuts before every character that follows a blank and is none. -/
def cutWords : List Char → List (List Char)
  | [] => []
  | c :: cs =>
    match cutWords cs with
    | [] => [[c]]
    | w :: ws =>
      if isBlank c && (w.head?.map fun d ↦ !isBlank d).getD false then [c] :: w :: ws
      else (c :: w) :: ws

/-- The words of a line. The blanks in front belong to the first word. -/
def words (cs : List Char) : List (List Char) :=
  match cutWords cs with
  | first :: second :: rest => if first.all isBlank then (first ++ second) :: rest else first :: second :: rest
  | ws => ws

/-- The columns that characters take. -/
def widthOf (cs : List Char) : Nat := cs.foldl (fun n c ↦ n + charWidth c) 0

def stripEnd (cs : List Char) : List Char := (cs.reverse.dropWhile isBlank).reverse

/-- Cuts a word into pieces that fill a line each, but for the last. -/
def chop (limit : Nat) (piece : List Char) : List Char → List (List Char)
  | [] => [piece]
  | c :: cs =>
    if widthOf (piece ++ [c]) ≤ limit then chop limit (piece ++ [c]) cs else piece :: chop limit [c] cs

/-- The lines of a text so far: those that are finished, latest first, and the one that is being filled. -/
structure Wrapping where
  finished : List (List Char) := []
  line : List Char := []

def Wrapping.addPieces (w : Wrapping) : List (List Char) → Wrapping
  | [] => w
  | piece :: pieces =>
    Wrapping.addPieces ⟨if w.line.isEmpty then w.finished else w.line :: w.finished, piece⟩ pieces

/-- Puts a word on the line, or on the next one if it does not fit. -/
def Wrapping.add (limit : Nat) (w : Wrapping) (word : List Char) : Wrapping :=
  let size := widthOf (stripEnd word)
  if widthOf w.line + size ≤ limit then { w with line := w.line ++ word }
  else if limit < size then w.addPieces (chop limit [] word)
  else ⟨w.line :: w.finished, word⟩

def cropEnd (limit : Nat) (cs : List Char) : List Char :=
  let blanks := cs.length - (stripEnd cs).length
  cs.take (cs.length - min blanks (cs.length - limit))

/-- A line as lines that fit. -/
def wrap (limit : Nat) (s : String) : List String :=
  let w := (words s.toList).foldl (Wrapping.add limit) {}
  (w.line :: w.finished).reverse.map fun cs ↦ String.ofList (cropEnd limit cs)

end Coverage.Text
