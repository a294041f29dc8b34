import Coverage.Datum

/-!
# JSON text

Data as JSON. A number with a point or an exponent is binary, any other an integer of any size. Writing
has two settings: the width of the indentation, or one line without it, and whether everything outside
ASCII is escaped.
-/

namespace Coverage.Json

open Coverage.Text (hex hexDigit)

/-- How JSON is written. -/
structure Style where
  /-- Blanks per level; without it everything stands in one line. -/
  indent : Option Nat := none
  /-- Escape everything but the printable characters of ASCII. -/
  ascii : Bool := false

/-! ## Writing -/

/-- A code point as one or two units of sixteen bits. -/
def escapeUnits (c : Char) : List Char :=
  let n := c.toNat
  if n < 0x10000 then ['\\', 'u'] ++ hex 4 n
  else ['\\', 'u'] ++ hex 4 (0xd800 + (n - 0x10000) / 0x400) ++ ['\\', 'u'] ++ hex 4 (0xdc00 + (n - 0x10000) % 0x400)

def escapeChar (style : Style) (c : Char) : List Char :=
  if c = '"' || c = '\\' then ['\\', c]
  else if c = '\n' then ['\\', 'n']
  else if c = '\r' then ['\\', 'r']
  else if c = '\t' then ['\\', 't']
  else if c = '\x08' then ['\\', 'b']
  else if c = '\x0c' then ['\\', 'f']
  else if c.toNat < 0x20 then escapeUnits c
  else if style.ascii && 0x7f ≤ c.toNat then escapeUnits c
  else [c]

def string (style : Style) (s : String) : String :=
  String.ofList ('"' :: (s.toList.flatMap (escapeChar style) ++ ['"']))

def number : Binary64 → String
  | .infinite false => "Infinity"
  | .infinite true => "-Infinity"
  | .nan => "NaN"
  | x => Decimal.text x

/-- The start of a line at a level of nesting. -/
def Style.newline (style : Style) (level : Nat) : String :=
  match style.indent with
  | some width => "\n" ++ "".pushn ' ' (width * level)
  | none => ""

def Style.comma (style : Style) (level : Nat) : String :=
  match style.indent with
  | some _ => "," ++ style.newline level
  | none => ", "

/-- Items between brackets, each on a line of its own if there is an indentation. -/
def enclose (style : Style) (level : Nat) (opening closing : String) (items : List String) : String :=
  if items.isEmpty then opening ++ closing
  else
    opening ++ style.newline (level + 1) ++ (style.comma (level + 1)).intercalate items ++
      style.newline level ++ closing

mutual
/-- The text of a value that stands at a level of nesting. -/
def render (style : Style) (level : Nat) : Datum → String
  | .null => "null"
  | .bool true => "true"
  | .bool false => "false"
  | .int n => toString n
  | .float x => number x
  | .str s => string style s
  | .list items => enclose style level "[" "]" (renderItems style (level + 1) items)
  | .map pairs => enclose style level "\x7b" "\x7d" (renderPairs style (level + 1) pairs)

def renderItems (style : Style) (level : Nat) : List Datum → List String
  | [] => []
  | d :: ds => render style level d :: renderItems style level ds

def renderPairs (style : Style) (level : Nat) : List (Datum × Datum) → List String
  | [] => []
  | (k, v) :: rest => (string style k.text ++ ": " ++ render style level v) :: renderPairs style level rest
end

def write (style : Style) (d : Datum) : String := render style 0 d

/-! ## Reading -/

def isSpace (c : Char) : Bool := c == ' ' || c == '\n' || c == '\r' || c == '\t'

def skipSpace (cs : List Char) : List Char := cs.dropWhile isSpace

def digitsValue (ds : List Char) : Nat := ds.foldl (fun n d ↦ 10 * n + (d.toNat - '0'.toNat)) 0

def hexValue? (c : Char) : Option Nat :=
  if c.isDigit then some (c.toNat - '0'.toNat)
  else if 'a' ≤ c ∧ c ≤ 'f' then some (c.toNat - 'a'.toNat + 10)
  else if 'A' ≤ c ∧ c ≤ 'F' then some (c.toNat - 'A'.toNat + 10)
  else none

def unit? (a b c d : Char) : Option Nat := do
  return (((← hexValue? a) * 16 + (← hexValue? b)) * 16 + (← hexValue? c)) * 16 + (← hexValue? d)

def joinUnits (high low : Nat) : Char := Char.ofNat (0x10000 + (high - 0xd800) * 0x400 + (low - 0xdc00))

/-- A unit that stands alone: one half of a pair has no character and reads as the replacement
character. -/
def loneUnit (n : Nat) : Char := if 0xd800 ≤ n ∧ n < 0xe000 then '\ufffd' else Char.ofNat n

/-- The characters of a list of code points and units, where two units that are the halves of a pair make
one character. -/
def joinHalves : List Nat → List Char
  | [] => []
  | [n] => [loneUnit n]
  | high :: low :: ns =>
    if 0xd800 ≤ high ∧ high < 0xdc00 ∧ 0xdc00 ≤ low ∧ low < 0xe000 then joinUnits high low :: joinHalves ns
    else loneUnit high :: joinHalves (low :: ns)

/-- The character that a short escape stands for. -/
def unescape? : Char → Option Char
  | 'n' => some '\n'
  | 'r' => some '\r'
  | 't' => some '\t'
  | 'b' => some '\x08'
  | 'f' => some '\x0c'
  | '"' => some '"'
  | '\\' => some '\\'
  | '/' => some '/'
  | _ => none

/-- The characters of a string up to its closing quote, and what follows. -/
def readString (acc : List Nat) : List Char → Option (String × List Char)
  | [] => none
  | '"' :: cs => some (String.ofList (joinHalves acc.reverse), cs)
  | '\\' :: 'u' :: a :: b :: c :: d :: cs =>
    match unit? a b c d with
    | some n => readString (n :: acc) cs
    | none => none
  | '\\' :: c :: cs =>
    match unescape? c with
    | some c => readString (c.toNat :: acc) cs
    | none => none
  | c :: cs => readString (c.toNat :: acc) cs

/-- The digits after a point, if there is one with a digit. -/
def readFraction : List Char → List Char × List Char
  | '.' :: cs => if (cs.head?.map Char.isDigit).getD false then cs.span Char.isDigit else ([], '.' :: cs)
  | cs => ([], cs)

def readExponent (cs : List Char) : Option Int × List Char :=
  match cs with
  | e :: rest =>
    if e = 'e' || e = 'E' then
      let (negative, digits) := match rest with
        | '-' :: r => (true, r)
        | '+' :: r => (false, r)
        | r => (false, r)
      match digits.span Char.isDigit with
      | ([], _) => (none, cs)
      | (ds, r) =>
        let n : Int := digitsValue ds
        (some (if negative then -n else n), r)
    else (none, cs)
  | [] => (none, [])

/-- A number, after its sign. -/
def readNumber (negative : Bool) (cs : List Char) : Option (Datum × List Char) :=
  match cs.span Char.isDigit with
  | ([], _) => none
  | (whole, rest) =>
    let (fraction, rest) := readFraction rest
    let (exponent, rest) := readExponent rest
    if fraction.isEmpty && exponent.isNone then
      let n : Int := digitsValue whole
      some (.int (if negative then -n else n), rest)
    else
      some (.float (.ofDecimal negative (digitsValue (whole ++ fraction)) (exponent.getD 0 - fraction.length)), rest)

mutual
/-- A value at the start of the text, and what follows. -/
def readValue : Nat → List Char → Option (Datum × List Char)
  | 0, _ => none
  | fuel + 1, cs =>
    match skipSpace cs with
    | '"' :: r => (readString [] r).map fun (s, r) ↦ (.str s, r)
    | '[' :: r =>
      match skipSpace r with
      | ']' :: r => some (.list [], r)
      | r => (readItems fuel r).map fun (ds, r) ↦ (.list ds, r)
    | '\x7b' :: r =>
      match skipSpace r with
      | '\x7d' :: r => some (.map [], r)
      | r => (readPairs fuel r).map fun (ps, r) ↦ (.map ps, r)
    | 'n' :: 'u' :: 'l' :: 'l' :: r => some (.null, r)
    | 't' :: 'r' :: 'u' :: 'e' :: r => some (.bool true, r)
    | 'f' :: 'a' :: 'l' :: 's' :: 'e' :: r => some (.bool false, r)
    | 'N' :: 'a' :: 'N' :: r => some (.float .nan, r)
    | 'I' :: 'n' :: 'f' :: 'i' :: 'n' :: 'i' :: 't' :: 'y' :: r => some (.float (.infinite false), r)
    | '-' :: 'I' :: 'n' :: 'f' :: 'i' :: 'n' :: 'i' :: 't' :: 'y' :: r => some (.float (.infinite true), r)
    | '-' :: r => readNumber true r
    | r => readNumber false r

def readItems : Nat → List Char → Option (List Datum × List Char)
  | 0, _ => none
  | fuel + 1, cs =>
    match readValue fuel cs with
    | none => none
    | some (d, r) =>
      match skipSpace r with
      | ',' :: r => (readItems fuel r).map fun (ds, r) ↦ (d :: ds, r)
      | ']' :: r => some ([d], r)
      | _ => none

def readPairs : Nat → List Char → Option (List (Datum × Datum) × List Char)
  | 0, _ => none
  | fuel + 1, cs =>
    match skipSpace cs with
    | '"' :: r =>
      match readString [] r with
      | none => none
      | some (k, r) =>
        match skipSpace r with
        | ':' :: r =>
          match readValue fuel r with
          | none => none
          | some (d, r) =>
            match skipSpace r with
            | ',' :: r => (readPairs fuel r).map fun (ps, r) ↦ ((.str k, d) :: ps, r)
            | '\x7d' :: r => some ([(.str k, d)], r)
            | _ => none
        | _ => none
    | _ => none
end

/-- The value a text holds, and nothing besides. -/
def read? (s : String) : Option Datum :=
  let cs := s.toList
  match readValue (cs.length + 1) cs with
  | some (d, r) => if (skipSpace r).isEmpty then some d else none
  | none => none

end Coverage.Json
