import Coverage.Text.Quoted
import Coverage.Yaml.Scalar

/-!
# Writing YAML

Maps and lists are written as blocks. A text is written without quotes if it reads back as that text, else
in single quotes, and with escapes in double quotes if it holds anything but printable ASCII. Long texts
continue on a further line at a single blank.
-/

namespace Coverage.Yaml

/-- Lines are kept up to this width where a text can be continued. -/
def lineWidth : Nat := 80

/-- Blanks per level. -/
def indentWidth : Nat := 2

/-! ## Styles -/

/-- How a text is written. -/
inductive Style where
  | plain
  | single
  | double
  deriving DecidableEq, Repr

def isLineBreak (c : Char) : Bool := c == '\n' || c == '\x85' || c == '\u2028' || c == '\u2029'

def isSeparator (c : Char) : Bool := c == '\x00' || c == ' ' || c == '\t' || c == '\r' || isLineBreak c

/-- A separator or the end follows. -/
def separatorNext : List Char → Bool
  | [] => true
  | c :: _ => isSeparator c

/-- Characters that need an escape. -/
def isSpecial (c : Char) : Bool := !(c == '\n' || (' ' ≤ c && c ≤ '~'))

/-- Whether the first character gives the text another meaning. -/
def badStart : List Char → Bool
  | [] => false
  | c :: cs =>
    "#,[]\x7b\x7d&*!|>'\"%@\x60".toList.contains c ||
      ((c == '?' || c == ':' || c == '-') && separatorNext cs)

/-- Whether a later character gives the text another meaning: a colon before a separator, or a number sign
behind one. -/
def badInside (previous : Char) : List Char → Bool
  | [] => false
  | c :: cs =>
    (c == ':' && separatorNext cs) || (c == '#' && isSeparator previous) || badInside c cs

/-- A line break next to a blank on one of its two sides. -/
def hasPair (first second : Char → Bool) : List Char → Bool
  | c :: d :: cs => (first c && second d) || hasPair first second (d :: cs)
  | _ => false

/-- Whether the text can stand without quotes, its type apart. -/
def allowsPlain (cs : List Char) : Bool :=
  match cs with
  | [] => true
  | c :: rest =>
    let last := cs.getLast?.getD c
    !(c == ' ' || isLineBreak c || last == ' ' || isLineBreak last || cs.any isLineBreak || cs.any isSpecial ||
      "---".toList.isPrefixOf cs || "...".toList.isPrefixOf cs || badStart cs || badInside c rest)

/-- Whether the text can stand in single quotes. -/
def allowsSingle (cs : List Char) : Bool :=
  !(hasPair isLineBreak (· == ' ') cs || hasPair (· == ' ') isLineBreak cs || cs.any isSpecial)

def styleOf (isKey : Bool) (s : String) : Style :=
  let cs := s.toList
  if (typeOf? s).isNone && allowsPlain cs && !(isKey && cs.isEmpty) then .plain
  else if allowsSingle cs && !(isKey && cs.any isLineBreak) then .single
  else .double

/-! ## Texts -/

/-- The start of a further line. -/
def continueAt (indent : Nat) : List Char := '\n' :: List.replicate indent ' '

/-- The rest of a text without quotes, from a column on. A single blank beyond the width becomes a line
break. `blanks` counts those just passed. -/
def plainFrom (split : Bool) (indent : Nat) : Nat → Nat → List Char → List Char
  | _, blanks, [] => List.replicate blanks ' '
  | column, blanks, c :: cs =>
    if c == ' ' then plainFrom split indent column (blanks + 1) cs
    else if blanks == 1 && split && column > lineWidth then
      continueAt indent ++ c :: plainFrom split indent (indent + 1) 0 cs
    else List.replicate blanks ' ' ++ c :: plainFrom split indent (column + blanks + 1) 0 cs

/-- The rest of a text in single quotes. A quote is written twice; each run of line breaks is written with
one more. -/
def singleFrom (split : Bool) (indent : Nat) : Bool → Nat → Nat → Bool → List Char → List Char
  | _, _, blanks, inBreak, [] => List.replicate blanks ' ' ++ if inBreak then continueAt indent else []
  | started, column, blanks, inBreak, c :: cs =>
    if c == ' ' then
      if inBreak then continueAt indent ++ singleFrom split indent true indent 1 false cs
      else singleFrom split indent started column (blanks + 1) false cs
    else if c == '\n' then
      List.replicate blanks ' ' ++ '\n' :: singleFrom split indent true (column + blanks) 0 true cs
    else
      let text := if c == '\'' then ['\'', '\''] else [c]
      if inBreak then continueAt indent ++ text ++ singleFrom split indent true (indent + text.length) 0 false cs
      else if blanks == 1 && split && started && column > lineWidth then
        continueAt indent ++ text ++ singleFrom split indent true (indent + text.length) 0 false cs
      else
        List.replicate blanks ' ' ++ text ++
          singleFrom split indent true (column + blanks + text.length) 0 false cs

def shortEscape? : Char → Option Char
  | '\x00' => some '0'
  | '\x07' => some 'a'
  | '\x08' => some 'b'
  | '\t' => some 't'
  | '\n' => some 'n'
  | '\x0b' => some 'v'
  | '\x0c' => some 'f'
  | '\r' => some 'r'
  | '\x1b' => some 'e'
  | '"' => some '"'
  | '\\' => some '\\'
  | '\x85' => some 'N'
  | '\xa0' => some '_'
  | '\u2028' => some 'L'
  | '\u2029' => some 'P'
  | _ => none

def escapeOf (c : Char) : List Char :=
  let code (width : Nat) : List Char := (Text.hex width c.toNat).map Char.toUpper
  match shortEscape? c with
  | some e => ['\\', e]
  | none =>
    if c.toNat ≤ 0xff then '\\' :: 'x' :: code 2
    else if c.toNat ≤ 0xffff then '\\' :: 'u' :: code 4
    else '\\' :: 'U' :: code 8

def needsEscape (c : Char) : Bool := c == '"' || c == '\\' || !(' ' ≤ c && c ≤ '~')

/-- Continues a text in double quotes on a further line, which a backslash announces; a blank there needs
one as well. -/
def breakDouble (indent : Nat) (next : Option Char) : List Char × Nat :=
  if next == some ' ' then ('\\' :: continueAt indent ++ ['\\'], indent + 1)
  else ('\\' :: continueAt indent, indent)

/-- The rest of a text in double quotes. `pending` is what has been passed and not been written yet, and
`first` says that nothing has been passed at all. -/
def doubleFrom (split : Bool) (indent : Nat) : Bool → Nat → List Char → List Char → List Char
  | _, _, pending, [] => pending
  | first, column, pending, c :: cs =>
    let inner := !first && !cs.isEmpty
    if needsEscape c then
      let column := column + pending.length + (escapeOf c).length
      let written := pending ++ escapeOf c
      if inner && split && column - 1 > lineWidth then
        let (text, column) := breakDouble indent cs.head?
        written ++ text ++ doubleFrom split indent false column [] cs
      else written ++ doubleFrom split indent false column [] cs
    else if inner && split && (c == ' ' || pending.isEmpty) && column + pending.length > lineWidth then
      let (text, column) := breakDouble indent (some c)
      pending ++ text ++ doubleFrom split indent false column [c] cs
    else doubleFrom split indent false column (pending ++ [c]) cs

def writeText (isKey : Bool) (indent column : Nat) (s : String) : String :=
  let cs := s.toList
  match styleOf isKey s with
  | .plain => String.ofList (plainFrom (!isKey) indent (column + 1) 0 cs)
  | .single => String.ofList ('\'' :: (singleFrom (!isKey) indent false (column + 2) 0 false cs ++ ['\'']))
  | .double => String.ofList ('"' :: (doubleFrom (!isKey) indent true (column + 2) [] cs ++ ['"']))

/-! ## Values -/

def writeFloat (x : Binary64) : String :=
  match x with
  | .nan => ".nan"
  | .infinite false => ".inf"
  | .infinite true => "-.inf"
  | x =>
    let cs := (Decimal.text x).toList
    if !cs.contains '.' && cs.contains 'e' then
      String.ofList (cs.takeWhile (· != 'e') ++ ".0".toList ++ cs.dropWhile (· != 'e'))
    else String.ofList cs

def writeScalar (isKey : Bool) (indent column : Nat) : Datum → String
  | .null => "null"
  | .bool true => "true"
  | .bool false => "false"
  | .int n => toString n
  | .float x => writeFloat x
  | .str s => writeText isKey indent column s
  | .list _ => "[]"
  | .map _ => "\x7b\x7d"

def blanks (n : Nat) : String := "".pushn ' ' n

mutual
/-- The lines of the pairs of a map at a level; the first line may already have its indentation. -/
def writePairs (indent : Nat) (started : Bool) : List (Datum × Datum) → String
  | [] => ""
  | (k, v) :: rest =>
    let key := writeScalar true indent indent k ++ ":"
    (if started then "" else blanks indent) ++ key ++ writeValue indent (indent + key.length) v ++
      writePairs indent false rest

/-- A value after its key: on the same line, or as a block below it. -/
def writeValue (indent column : Nat) : Datum → String
  | .list (d :: ds) => "\n" ++ writeItems indent false (d :: ds)
  | .map (p :: ps) => "\n" ++ writePairs (indent + indentWidth) false (p :: ps)
  | d => " " ++ writeScalar false (indent + indentWidth) column d ++ "\n"

def writeItems (indent : Nat) (started : Bool) : List Datum → String
  | [] => ""
  | d :: ds =>
    (if started then "" else blanks indent) ++ "-" ++ writeItem indent d ++ writeItems indent false ds

def writeItem (indent : Nat) : Datum → String
  | .list (d :: ds) => " " ++ writeItems (indent + indentWidth) true (d :: ds)
  | .map (p :: ps) => " " ++ writePairs (indent + indentWidth) true (p :: ps)
  | d => " " ++ writeScalar false (indent + indentWidth) (indent + 1) d ++ "\n"
end

/-- A map as a document. -/
def write (pairs : List (String × Datum)) : String :=
  writePairs 0 false (pairs.map fun p ↦ (.str p.1, p.2))

end Coverage.Yaml
