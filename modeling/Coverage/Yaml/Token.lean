/-!
# Tokens of YAML

The scanner turns a text into tokens. Blocks are delimited by indentation: where an entry or a key starts
further to the right than the block around it, a block starts, and where something starts further to the
left, blocks end. A scalar or a flow collection can turn out to be a key when a colon follows it on the
same line; the tokens that announce a key are then put before it.
-/

namespace Coverage.Yaml

/-- A token. -/
inductive Token where
  | streamEnd
  | directive
  | documentStart
  | documentEnd
  | blockSequenceStart
  | blockMappingStart
  | blockEnd
  | flowSequenceStart
  | flowSequenceEnd
  | flowMappingStart
  | flowMappingEnd
  | blockEntry
  | flowEntry
  | key
  | value
  /-- A name for the node that follows. -/
  | anchor
  /-- Scalars without quotes are resolved by their form. -/
  | scalar (plain : Bool) (text : String)
  /-- What follows is no token. -/
  | broken
  deriving DecidableEq, Repr

/-- Why a text is no YAML, or uses a part of it that is not supported. -/
inductive Unreadable where
  | badCharacter
  | badToken
  /-- A token in a place where it cannot be. -/
  | misplacedToken
  | severalDocuments
  /-- A node that stands for no value. -/
  | badValue
  deriving DecidableEq, Repr

abbrev Scan (α : Type) := Except Unreadable α

def unreadable {α : Type} : Scan α := .error .badToken

/-! ## Characters -/

def isBreak (c : Char) : Bool :=
  c == '\n' || c == '\r' || c == '\x85' || c == '\u2028' || c == '\u2029'

def isSpace (c : Char) : Bool := c == ' ' || c == '\t' || isBreak c

/-- A blank or the end of the text. -/
def blankNext : List Char → Bool
  | [] => true
  | c :: _ => isSpace c

/-- Characters that a text may hold. -/
def isAllowed (c : Char) : Bool :=
  let n := c.toNat
  c == '\t' || c == '\n' || c == '\r' || (0x20 ≤ n && n ≤ 0x7e) || n == 0x85 || (0xa0 ≤ n && n ≤ 0xfffd) ||
    0x10000 ≤ n

/-- A position in the text. -/
structure Cursor where
  rest : List Char
  index : Nat := 0
  line : Nat := 0
  column : Nat := 0

namespace Cursor

/-- Steps over one character. A carriage return before a line feed ends no line of its own. -/
def next (p : Cursor) : Cursor :=
  match p.rest with
  | [] => p
  | c :: cs =>
    if isBreak c && !(c == '\r' && cs.head? == some '\n') then ⟨cs, p.index + 1, p.line + 1, 0⟩
    else if c == '\ufeff' then ⟨cs, p.index + 1, p.line, p.column⟩
    else ⟨cs, p.index + 1, p.line, p.column + 1⟩

def skip (p : Cursor) : Nat → Cursor
  | 0 => p
  | n + 1 => p.next.skip n

/-- Skips the characters that satisfy `f`. -/
def skipWhile (f : Char → Bool) (p : Cursor) : Cursor := p.skip (p.rest.takeWhile f).length

def lineBreak (p : Cursor) : List Char × Cursor :=
  match p.rest with
  | '\r' :: '\n' :: _ => (['\n'], p.skip 2)
  | c :: _ =>
    if c == '\u2028' || c == '\u2029' then ([c], p.next)
    else if isBreak c then (['\n'], p.next)
    else ([], p)
  | [] => ([], p)

def startsWith (p : Cursor) (text : String) : Bool := text.toList.isPrefixOf p.rest

/-- A line of three dashes or points. -/
def atMarker (p : Cursor) : Bool :=
  (p.startsWith "---" || p.startsWith "...") && blankNext (p.rest.drop 3)

end Cursor

/-! ## Scalars -/

def plainLength (flow : Bool) : List Char → Nat
  | [] => 0
  | c :: cs =>
    if isSpace c then 0
    else if c == ':' && (blankNext cs || (flow && (cs.head?.map (",[]\x7b\x7d".toList.contains ·)).getD false)) then 0
    else if flow && ",?[]\x7b\x7d".toList.contains c then 0
    else plainLength flow cs + 1

/-- Line breaks after the first one, with the blanks before them. Nothing if a marker follows one. -/
def plainBreaks : Nat → List Char → Cursor → Option (List Char) × Cursor
  | 0, acc, p => (some acc, p)
  | fuel + 1, acc, p =>
    match p.rest with
    | [] => (some acc, p)
    | c :: _ =>
      if c == ' ' then plainBreaks fuel acc p.next
      else if isBreak c then
        let (b, p) := p.lineBreak
        if p.atMarker then (none, p) else plainBreaks fuel (acc ++ b) p
      else (some acc, p)

/-- A single line feed is folded into a blank; of several the first is dropped. -/
def fold (first breaks : List Char) : List Char :=
  if first != ['\n'] then first ++ breaks
  else if breaks.isEmpty then [' ']
  else breaks

/-- The blanks and line breaks inside a plain scalar, and whether there was a line break. -/
def plainSpaces (p : Cursor) : Option (List Char) × Bool × Cursor :=
  let blanks := p.rest.takeWhile (· == ' ')
  let p := p.skip blanks.length
  match p.rest with
  | c :: _ =>
    if isBreak c then
      let (first, p) := p.lineBreak
      if p.atMarker then (none, true, p)
      else
        let (breaks, p) := plainBreaks (p.rest.length + 1) [] p
        (breaks.map (fold first), true, p)
    else (some blanks, false, p)
  | [] => (some blanks, false, p)

/-- A plain scalar: parts with single blanks or folded line breaks between them. A later line must be
indented. Also says whether a key can follow. -/
def plainScalar (flow : Bool) (indent : Int) : Nat → List Char → List Char → Bool → Cursor → List Char × Bool × Cursor
  | 0, acc, _, allowKey, p => (acc, allowKey, p)
  | fuel + 1, acc, spaces, allowKey, p =>
    match p.rest.head? == some '#', plainLength flow p.rest with
    | true, _ => (acc, allowKey, p)
    | false, 0 => (acc, allowKey, p)
    | false, n + 1 =>
      let acc := acc ++ spaces ++ p.rest.take (n + 1)
      let p := p.skip (n + 1)
      match plainSpaces p with
      | (none, broke, p) => (acc, broke, p)
      | (some spaces, broke, p) =>
        if spaces.isEmpty || p.rest.head? == some '#' || (!flow && (p.column : Int) < indent) then (acc, broke, p)
        else plainScalar flow indent fuel acc spaces broke p

/-- What a character behind a backslash stands for in double quotes. -/
def escape? : Char → Option Char
  | '0' => some '\x00'
  | 'a' => some '\x07'
  | 'b' => some '\x08'
  | 't' => some '\t'
  | '\t' => some '\t'
  | 'n' => some '\n'
  | 'v' => some '\x0b'
  | 'f' => some '\x0c'
  | 'r' => some '\r'
  | 'e' => some '\x1b'
  | ' ' => some ' '
  | '"' => some '"'
  | '\\' => some '\\'
  | '/' => some '/'
  | 'N' => some '\x85'
  | '_' => some '\xa0'
  | 'L' => some '\u2028'
  | 'P' => some '\u2029'
  | _ => none

/-- How many hexadecimal digits an escape has. -/
def escapeWidth? : Char → Option Nat
  | 'x' => some 2
  | 'u' => some 4
  | 'U' => some 8
  | _ => none

def isHex (c : Char) : Bool := c.isDigit || ('a' ≤ c && c ≤ 'f') || ('A' ≤ c && c ≤ 'F')

def hexOf (c : Char) : Nat :=
  if c.isDigit then c.toNat - '0'.toNat
  else if 'a' ≤ c ∧ c ≤ 'f' then c.toNat - 'a'.toNat + 10
  else c.toNat - 'A'.toNat + 10

/-- The character of a code, if it has one. -/
def charOf? (n : Nat) : Option Char := if n.isValidChar then some (Char.ofNat n) else none

/-- Line breaks in a quoted scalar, with the blanks after them. -/
def quotedBreaks : Nat → List Char → Cursor → Scan (List Char × Cursor)
  | 0, acc, p => .ok (acc, p)
  | fuel + 1, acc, p =>
    if p.atMarker then unreadable
    else
      let p := p.skipWhile fun c ↦ c == ' ' || c == '\t'
      match p.rest with
      | c :: _ =>
        if isBreak c then
          let (b, p) := p.lineBreak
          quotedBreaks fuel (acc ++ b) p
        else .ok (acc, p)
      | [] => .ok (acc, p)

def quotedEscape (p : Cursor) : Scan (List Char × Cursor) :=
  match p.rest with
  | [] => unreadable
  | c :: cs =>
    match escape? c, escapeWidth? c with
    | some d, _ => .ok ([d], p.next)
    | none, some width =>
      let ds := cs.take width
      if ds.length == width && ds.all isHex then
        match charOf? (ds.foldl (fun n d ↦ 16 * n + hexOf d) 0) with
        | some d => .ok ([d], p.skip (width + 1))
        | none => unreadable
      else unreadable
    | none, none => if isBreak c then quotedBreaks (cs.length + 2) [] p.lineBreak.2 else unreadable

def quotedScalar (double : Bool) : Nat → List Char → Cursor → Scan (List Char × Cursor)
  | 0, _, _ => unreadable
  | fuel + 1, acc, p =>
    match p.rest with
    | [] => unreadable
    | c :: cs =>
      if isSpace c then
        let blanks := p.rest.takeWhile fun c ↦ c == ' ' || c == '\t'
        let p := p.skip blanks.length
        match p.rest with
        | [] => unreadable
        | d :: ds =>
          if isBreak d then do
            let (first, p) := p.lineBreak
            let (breaks, p) ← quotedBreaks (ds.length + 2) [] p
            quotedScalar double fuel (acc ++ fold first breaks) p
          else quotedScalar double fuel (acc ++ blanks) p
      else if !double && c == '\'' && cs.head? == some '\'' then quotedScalar double fuel (acc ++ ['\'']) (p.skip 2)
      else if c == (if double then '"' else '\'') then .ok (acc, p.next)
      else if double && c == '\\' then do
        let (text, p) ← quotedEscape p.next
        quotedScalar double fuel (acc ++ text) p
      else quotedScalar double fuel (acc ++ [c]) p.next

/-! ## Scanning -/

/-- A token that can turn out to be a key. -/
structure KeyPlace where
  /-- The number of tokens before it. -/
  position : Nat
  /-- It stands where nothing but a key can. -/
  required : Bool
  index : Nat
  line : Nat
  column : Nat

/-- The state of the scanner. -/
structure Scanner where
  cursor : Cursor
  tokens : List Token := []
  /-- The number of flow collections around the cursor. -/
  flowLevel : Nat := 0
  indent : Int := -1
  indents : List Int := []
  /-- Whether a key can start here. -/
  allowKey : Bool := true
  /-- What can turn out to be a key, at each level. -/
  keys : List (Nat × KeyPlace) := []

namespace Scanner

def push (s : Scanner) (t : Token) : Scanner := { s with tokens := s.tokens ++ [t] }

def moveTo (s : Scanner) (p : Cursor) : Scanner := { s with cursor := p }

/-- Skips blanks, comments and line breaks. -/
def skipToToken : Nat → Scanner → Scanner
  | 0, s => s
  | fuel + 1, s =>
    let p := s.cursor.skipWhile (· == ' ')
    let p := if p.rest.head? == some '#' then p.skipWhile (!isBreak ·) else p
    match p.lineBreak with
    | ([], _) => s.moveTo p
    | (_, q) => skipToToken fuel { s with cursor := q, allowKey := s.allowKey || s.flowLevel == 0 }

/-- A key stands on one line and is not too long. -/
def isStale (s : Scanner) (k : KeyPlace) : Bool := k.line != s.cursor.line || s.cursor.index - k.index > 1024

def dropStale (s : Scanner) : Scan Scanner :=
  if s.keys.any fun k ↦ s.isStale k.2 && k.2.required then unreadable
  else .ok { s with keys := s.keys.filter fun k ↦ !s.isStale k.2 }

/-- Forgets what could have been a key at this level. -/
def dropKey (s : Scanner) : Scan Scanner :=
  match s.keys.lookup s.flowLevel with
  | none => .ok s
  | some k =>
    if k.required then unreadable
    else .ok { s with keys := s.keys.filter (·.1 != s.flowLevel) }

/-- The next token can turn out to be a key, if a key can start here. -/
def saveKey (s : Scanner) : Scan Scanner :=
  if s.allowKey then do
    let required := s.flowLevel == 0 && s.indent == s.cursor.column
    let s ← s.dropKey
    let k : KeyPlace := ⟨s.tokens.length, required, s.cursor.index, s.cursor.line, s.cursor.column⟩
    return { s with keys := (s.flowLevel, k) :: s.keys }
  else .ok s

/-- Ends the blocks that are indented further than a column. -/
def unwind (column : Int) : Nat → Scanner → Scanner
  | 0, s => s
  | fuel + 1, s =>
    if s.flowLevel == 0 && column < s.indent then
      unwind column fuel
        { s.push .blockEnd with indent := s.indents.head?.getD (-1), indents := s.indents.drop 1 }
    else s

def unwindAll (column : Int) (s : Scanner) : Scanner := s.unwind column (s.indents.length + 1)

/-- Starts a block at a column if it is further to the right than the block around it. -/
def addIndent (s : Scanner) (column : Nat) : Bool × Scanner :=
  if s.indent < column then (true, { s with indent := column, indents := s.indent :: s.indents })
  else (false, s)

def startBlock (s : Scanner) (t : Token) : Scanner :=
  match s.addIndent s.cursor.column with
  | (true, s) => s.push t
  | (false, s) => s

/-- A line of three dashes or points. -/
def marker (t : Token) (s : Scanner) : Scan Scanner := do
  let s ← (s.unwindAll (-1)).dropKey
  return { s.push t with cursor := s.cursor.skip 3, allowKey := false }

/-- The rest of a line that gives directions to the reader. -/
def directive (s : Scanner) : Scan Scanner := do
  let s ← (s.unwindAll (-1)).dropKey
  return { s.push .directive with cursor := s.cursor.skipWhile (!isBreak ·), allowKey := false }

def openFlow (t : Token) (s : Scanner) : Scan Scanner := do
  let s ← s.saveKey
  return { s.push t with cursor := s.cursor.next, flowLevel := s.flowLevel + 1, allowKey := true }

def closeFlow (t : Token) (s : Scanner) : Scan Scanner := do
  let s ← s.dropKey
  return { s.push t with cursor := s.cursor.next, flowLevel := s.flowLevel - 1, allowKey := false }

def flowEntry (s : Scanner) : Scan Scanner := do
  let s ← s.dropKey
  return { s.push .flowEntry with cursor := s.cursor.next, allowKey := true }

def blockEntry (s : Scanner) : Scan Scanner := do
  if s.flowLevel == 0 && !s.allowKey then unreadable
  let s := if s.flowLevel == 0 then s.startBlock .blockSequenceStart else s
  let s ← s.dropKey
  return { s.push .blockEntry with cursor := s.cursor.next, allowKey := true }

def explicitKey (s : Scanner) : Scan Scanner := do
  if s.flowLevel == 0 && !s.allowKey then unreadable
  let s := if s.flowLevel == 0 then s.startBlock .blockMappingStart else s
  let s ← s.dropKey
  return { s.push .key with cursor := s.cursor.next, allowKey := s.flowLevel == 0 }

/-- A colon: what stands before it on the line is a key. -/
def value (s : Scanner) : Scan Scanner :=
  match s.keys.lookup s.flowLevel with
  | some k =>
    let s := { s with keys := s.keys.filter (·.1 != s.flowLevel), tokens := s.tokens.insertIdx k.position .key }
    let s :=
      if s.flowLevel == 0 then
        match s.addIndent k.column with
        | (true, s) => { s with tokens := s.tokens.insertIdx k.position .blockMappingStart }
        | (false, s) => s
      else s
    .ok { s.push .value with cursor := s.cursor.next, allowKey := false }
  | none => do
    if s.flowLevel == 0 && !s.allowKey then unreadable
    let s := if s.flowLevel == 0 then s.startBlock .blockMappingStart else s
    let s ← s.dropKey
    return { s.push .value with cursor := s.cursor.next, allowKey := s.flowLevel == 0 }

def isAnchorChar (c : Char) : Bool := c.isAlphanum || c == '-' || c == '_'

/-- A name for a node. -/
def anchor (s : Scanner) : Scan Scanner := do
  let s ← s.saveKey
  let name := s.cursor.next.rest.takeWhile isAnchorChar
  let p := s.cursor.skip (name.length + 1)
  let ends := blankNext p.rest || (p.rest.head?.map ("?:,]\x7d%@\x60".toList.contains ·)).getD false
  if name.isEmpty || !ends then unreadable
  return { s.push .anchor with cursor := p, allowKey := false }

def plain (s : Scanner) : Scan Scanner := do
  let s ← s.saveKey
  let (text, allowKey, p) :=
    plainScalar (s.flowLevel != 0) (s.indent + 1) (s.cursor.rest.length + 1) [] [] false s.cursor
  return { s.push (.scalar true (String.ofList text)) with cursor := p, allowKey }

def quoted (double : Bool) (s : Scanner) : Scan Scanner := do
  let s ← s.saveKey
  let (text, p) ← quotedScalar double (s.cursor.rest.length + 1) [] s.cursor.next
  return { s.push (.scalar false (String.ofList text)) with cursor := p, allowKey := false }

/-- Whether a plain scalar can start here. -/
def startsPlain (s : Scanner) : Bool :=
  match s.cursor.rest with
  | [] => false
  | c :: cs =>
    !(isSpace c || "-?:,[]\x7b\x7d#&*!|>'\"%@\x60".toList.contains c) ||
      (!blankNext cs && (c == '-' || (s.flowLevel == 0 && (c == '?' || c == ':'))))

/-- The next token, for a cursor that stands at it. -/
def token (s : Scanner) : Scan Scanner :=
  match s.cursor.rest with
  | [] => .ok s
  | c :: cs =>
    let inFlow := s.flowLevel != 0
    if c == '%' && s.cursor.column == 0 then s.directive
    else if c == '-' && s.cursor.column == 0 && s.cursor.atMarker then s.marker .documentStart
    else if c == '.' && s.cursor.column == 0 && s.cursor.atMarker then s.marker .documentEnd
    else if c == '[' then s.openFlow .flowSequenceStart
    else if c == '\x7b' then s.openFlow .flowMappingStart
    else if c == ']' then s.closeFlow .flowSequenceEnd
    else if c == '\x7d' then s.closeFlow .flowMappingEnd
    else if c == ',' then s.flowEntry
    else if c == '-' && blankNext cs then s.blockEntry
    else if c == '?' && (inFlow || blankNext cs) then s.explicitKey
    else if c == ':' && (inFlow || blankNext cs) then s.value
    else if c == '&' then s.anchor
    else if c == '\'' then s.quoted false
    else if c == '"' then s.quoted true
    else if s.startsPlain then s.plain
    else unreadable

/-- Moves to the next token and ends the blocks that end there. -/
def settle (s : Scanner) : Scan Scanner := do
  let s ← (s.skipToToken (s.cursor.rest.length + 1)).dropStale
  return s.unwindAll s.cursor.column

def finish (s : Scanner) : Scan (List Token) := do
  let s ← (s.unwindAll (-1)).dropKey
  return s.tokens ++ [.streamEnd]

/-- The tokens up to a place where there is none. A token that can still turn out to be a key is not yet
certain, and neither is what follows it. -/
def breakOff (s : Scanner) : List Token :=
  s.tokens.take (s.keys.foldl (fun n k ↦ min n k.2.position) s.tokens.length) ++ [.broken]

/-- One token further, or to the end. -/
def advance (s : Scanner) : Scan (Scanner ⊕ List Token) := do
  let s ← s.settle
  if s.cursor.rest.isEmpty then return .inr (← s.finish)
  return .inl (← (← s.token).dropStale)

def run : Nat → Scanner → List Token
  | 0, s => s.breakOff
  | fuel + 1, s =>
    match s.advance with
    | .error _ => s.breakOff
    | .ok (.inl s) => run fuel s
    | .ok (.inr tokens) => tokens

end Scanner

def scan (text : String) : Scan (List Token) :=
  let cs := text.toList
  if !cs.all isAllowed then .error .badCharacter
  else
    let cs := if cs.head? == some '\ufeff' then cs.drop 1 else cs
    .ok (Scanner.run (cs.length + 2) { cursor := ⟨cs, 0, 0, 0⟩ })

end Coverage.Yaml
