import Coverage.Regex
import Coverage.Text.Identifier
import Coverage.Text.Quoted

/-!
# Reading regular expressions

A pattern is a list of tokens: characters, and characters behind a backslash. A lone backslash at the end
is noticed as soon as the token before it has been read. Every problem is reported with its position.
-/

namespace Coverage.Regex

/-- A token of a pattern. -/
inductive Token where
  | plain (c : Char)
  | escaped (c : Char)
  /-- A backslash at the end. -/
  | dangling
  deriving DecidableEq, Repr

namespace Token

def ofChars : List Char → List Token
  | [] => []
  | ['\\'] => [dangling]
  | '\\' :: c :: cs => escaped c :: ofChars cs
  | c :: cs => plain c :: ofChars cs

def chars : Token → List Char
  | plain c => [c]
  | escaped c => ['\\', c]
  | dangling => ['\\']

def length (t : Token) : Nat := t.chars.length

def text (t : Token) : String := String.ofList t.chars

end Token

/-- What is wrong with a pattern. -/
inductive Problem where
  | unterminatedGroup
  | unterminatedComment
  | unterminatedSet
  | unterminatedName (closing : String)
  | missingName
  | badName (name : String)
  | repeatedName (name : String) (number former : Nat)
  | unknownName (name : String)
  | openGroup
  | unknownGroup (number : Nat)
  | nothingToRepeat
  | multipleRepeat
  | reversedRepeat
  | repeatTooLarge
  | unbalanced
  | danglingEscape
  | badEscape (text : String)
  | incompleteEscape (text : String)
  | octalRange (text : String)
  | badRange (lo hi : String)
  | unknownExtension (text : String)
  | unexpectedEnd
  /-- A construct that this library does not read. -/
  | unsupported (text : String)
  deriving DecidableEq, Repr

def Problem.message : Problem → String
  | unterminatedGroup => "missing ), unterminated subpattern"
  | unterminatedComment => "missing ), unterminated comment"
  | unterminatedSet => "unterminated character set"
  | unterminatedName closing => "missing " ++ closing ++ ", unterminated name"
  | missingName => "missing group name"
  | badName name => "bad character in group name " ++ Text.quoted name
  | repeatedName name number former =>
    "redefinition of group name " ++ Text.quoted name ++ " as group " ++ toString number ++ "; was group " ++
      toString former
  | unknownName name => "unknown group name " ++ Text.quoted name
  | openGroup => "cannot refer to an open group"
  | unknownGroup number => "invalid group reference " ++ toString number
  | nothingToRepeat => "nothing to repeat"
  | multipleRepeat => "multiple repeat"
  | reversedRepeat => "min repeat greater than max repeat"
  | repeatTooLarge => "the repetition number is too large"
  | unbalanced => "unbalanced parenthesis"
  | danglingEscape => "bad escape (end of pattern)"
  | badEscape text => "bad escape " ++ text
  | incompleteEscape text => "incomplete escape " ++ text
  | octalRange text => "octal escape value " ++ text ++ " outside of range 0-0o377"
  | badRange lo hi => "bad character range " ++ lo ++ "-" ++ hi
  | unknownExtension text => "unknown extension " ++ text
  | unexpectedEnd => "unexpected end of pattern"
  | unsupported text => "unsupported construct " ++ text

/-- A problem and its position. -/
structure Invalid where
  problem : Problem
  position : Nat
  deriving DecidableEq, Repr

/-- The message with the position; in a pattern of several lines also the line and the column. -/
def Invalid.message (pattern : String) (e : Invalid) : String :=
  let base := e.problem.message ++ " at position " ++ toString e.position
  let before := pattern.toList.take e.position
  if pattern.toList.contains '\n' then
    let line := before.count '\n' + 1
    let column := (before.reverse.takeWhile (· != '\n')).length + 1
    base ++ " (line " ++ toString line ++ ", column " ++ toString column ++ ")"
  else base

/-- The state of the reader. -/
structure Source where
  /-- The number of characters before the next token. -/
  position : Nat := 0
  rest : List Token
  /-- The number of the next group. -/
  groups : Nat := 1
  names : List (String × Nat) := []
  /-- Groups that are not closed yet. -/
  opened : List Nat := []

abbrev Reader (α : Type) := StateT Source (Except Invalid) α

namespace Reader

def fail {α : Type} (problem : Problem) (position : Nat) : Reader α := throw ⟨problem, position⟩

def position : Reader Nat := return (← get).position

/-- A problem that many characters before the next token. -/
def failBefore {α : Type} (problem : Problem) (offset : Nat) : Reader α := do
  fail problem ((← position) - offset)

def peek? : Reader (Option Token) := return (← get).rest.head?

/-- Notices a lone backslash as the next token. -/
def settle : Reader Unit := do
  if (← peek?) == some .dangling then fail .danglingEscape (← position)

def next? : Reader (Option Token) := do
  let s ← get
  match s.rest with
  | [] => return none
  | t :: rest =>
    set { s with position := s.position + t.length, rest }
    settle
    return some t

/-- Skips a character if it comes next. -/
def accept (c : Char) : Reader Bool := do
  if (← peek?) == some (.plain c) then
    discard next?
    return true
  return false

/-- At most that many plain characters that satisfy `p`. -/
def upTo (p : Char → Bool) : Nat → Reader (List Char)
  | 0 => return []
  | n + 1 => do
    match ← peek? with
    | some (.plain c) =>
      if p c then
        discard next?
        return c :: (← upTo p n)
      return []
    | _ => return []

/-- The number of tokens that are left. -/
def remaining : Reader Nat := return (← get).rest.length

def isOctal (c : Char) : Bool := '0' ≤ c && c ≤ '7'

def isHex (c : Char) : Bool := c.isDigit || ('a' ≤ c && c ≤ 'f') || ('A' ≤ c && c ≤ 'F')

def digitOf (c : Char) : Nat :=
  if c.isDigit then c.toNat - '0'.toNat
  else if 'a' ≤ c ∧ c ≤ 'f' then c.toNat - 'a'.toNat + 10
  else c.toNat - 'A'.toNat + 10

def valueOf (base : Nat) (ds : List Char) : Nat := ds.foldl (fun n d ↦ base * n + digitOf d) 0

def name (closing : Char) : Nat → List Char → Reader String
  | 0, _ => failBefore .missingName 0
  | fuel + 1, acc => do
    match ← next? with
    | none =>
      if acc.isEmpty then failBefore .missingName 0
      failBefore (.unterminatedName (String.singleton closing)) acc.length
    | some t =>
      if t == .plain closing then
        if acc.isEmpty then failBefore .missingName 1
        return String.ofList acc
      name closing fuel (acc ++ t.chars)

def groupName (closing : Char) : Reader String := do
  let s ← name closing ((← remaining) + 1) []
  if !Text.isIdentifier s then failBefore (.badName s) (s.length + 1)
  return s

/-! ## Escapes -/

/-- Escapes that stand for a control character. -/
def control? : Char → Option Nat
  | 'a' => some 7
  | 'f' => some 12
  | 'n' => some 10
  | 'r' => some 13
  | 't' => some 9
  | 'v' => some 11
  | '\\' => some 92
  | _ => none

/-- Escapes that stand for a class. -/
def class? : Char → Option SetItem
  | 'd' => some (.inClass false .digit)
  | 'D' => some (.inClass true .digit)
  | 's' => some (.inClass false .space)
  | 'S' => some (.inClass true .space)
  | 'w' => some (.inClass false .word)
  | 'W' => some (.inClass true .word)
  | _ => none

def anchor? : Char → Option Anchor
  | 'A' => some .textStart
  | 'Z' => some .textEnd
  | 'b' => some (.wordBoundary false)
  | 'B' => some (.wordBoundary true)
  | _ => none

/-- How many hexadecimal digits an escape has. -/
def hexWidth? : Char → Option Nat
  | 'x' => some 2
  | 'u' => some 4
  | 'U' => some 8
  | _ => none

/-- The rest of an escape by hexadecimal digits. -/
def hexEscape (c : Char) (width : Nat) : Reader Nat := do
  let ds ← upTo isHex width
  let text := String.ofList ('\\' :: c :: ds)
  if ds.length != width then failBefore (.incompleteEscape text) text.length
  if valueOf 16 ds > 0x10ffff then failBefore (.badEscape text) text.length
  return valueOf 16 ds

/-- An escape for a single character. -/
def charEscape (c : Char) : Reader Nat := do
  match hexWidth? c with
  | some width => hexEscape c width
  | none =>
    if c.isAlphanum then failBefore (.badEscape (String.ofList ['\\', c])) 2
    return c.toNat

def octalEscape (c : Char) : Reader Nat := do
  let ds ← upTo isOctal 2
  let text := String.ofList ('\\' :: c :: ds)
  if valueOf 8 (c :: ds) > 0o377 then failBefore (.octalRange text) text.length
  return valueOf 8 (c :: ds)

def setEscape (c : Char) : Reader SetItem := do
  if c == 'b' then return .range 8 8
  match control? c, class? c with
  | some n, _ => return .range n n
  | _, some item => return item
  | none, none =>
    let n ← if isOctal c then octalEscape c else charEscape c
    return .range n n

/-- A reference to a group, or an octal escape if there are three octal digits. -/
def reference (c : Char) : Reader Regex := do
  match ← peek? with
  | some (.plain d) =>
    if d.isDigit then
      discard next?
      match ← peek? with
      | some (.plain e) =>
        if isOctal c && isOctal d && isOctal e then
          discard next?
          let text := String.ofList ['\\', c, d, e]
          if valueOf 8 [c, d, e] > 0o377 then failBefore (.octalRange text) text.length
          return .char (valueOf 8 [c, d, e])
        refer [c, d]
      | _ => refer [c, d]
    else refer [c]
  | _ => refer [c]
where
  refer (ds : List Char) : Reader Regex := do
    let n := valueOf 10 ds
    let s ← get
    if n < s.groups then
      if s.opened.contains n then failBefore .openGroup (ds.length + 1)
      return .backref n
    failBefore (.unknownGroup n) ds.length

/-- An escape outside sets. -/
def escape (c : Char) : Reader Regex := do
  match anchor? c, class? c, control? c with
  | some a, _, _ => return .anchor a
  | _, some item, _ => return .oneOf false [item]
  | _, _, some n => return .char n
  | none, none, none =>
    if c == '0' then return .char (valueOf 8 (← upTo isOctal 2))
    if c.isDigit then reference c
    else return .char (← charEscape c)

/-! ## Sets -/

/-- One end of a range, or a class. -/
def setItem : Token → Reader SetItem
  | .escaped c => setEscape c
  | t => return .range (t.chars.head?.map (·.toNat) |>.getD 0) (t.chars.head?.map (·.toNat) |>.getD 0)

def setItems (start : Nat) : Nat → List SetItem → Reader (List SetItem)
  | 0, _ => fail .unterminatedSet start
  | fuel + 1, items => do
    match ← next? with
    | none => fail .unterminatedSet start
    | some t =>
      if t == .plain ']' && !items.isEmpty then return items
      let item ← setItem t
      if ← accept '-' then
        match ← next? with
        | none => fail .unterminatedSet start
        | some u =>
          if u == .plain ']' then return items ++ [item, .range '-'.toNat '-'.toNat]
          let other ← setItem u
          match item, other with
          | .range lo _, .range hi _ =>
            if hi < lo then failBefore (.badRange t.text u.text) (t.length + 1 + u.length)
            setItems start fuel (items ++ [.range lo hi])
          | _, _ => failBefore (.badRange t.text u.text) (t.length + 1 + u.length)
      else setItems start fuel (items ++ [item])

/-- A set, after its opening bracket. -/
def readSet : Reader Regex := do
  let start := (← position) - 1
  let negated ← accept '^'
  return .oneOf negated (← setItems start ((← remaining) + 1) [])

/-! ## Repetition -/

/-- The greatest number of rounds, which stands for no bound. -/
def unbounded : Nat := 4294967295

/-- Bounds in braces, after the opening one; none if this is not a repetition. -/
def readBounds : Reader (Option (Nat × Option Nat)) := do
  let start ← get
  if (← peek?) == some (.plain '\x7d') then return none
  let lo ← upTo Char.isDigit (← remaining)
  let comma ← accept ','
  let hi ← if comma then upTo Char.isDigit (← remaining) else pure lo
  if !(← accept '\x7d') then
    set start
    return none
  let min := valueOf 10 lo
  let max := valueOf 10 hi
  if min ≥ unbounded || max ≥ unbounded then fail .repeatTooLarge start.position
  if hi.isEmpty then return some (min, none)
  if max < min then fail .reversedRepeat start.position
  return some (min, some max)

/-- The repetition that a character starts. -/
def bounds? (c : Char) : Reader (Option (Nat × Option Nat)) :=
  match c with
  | '?' => return some (0, some 1)
  | '*' => return some (0, none)
  | '+' => return some (1, none)
  | _ => readBounds

def repeatLast (start min : Nat) (max : Option Nat) (items : List Regex) : Reader (List Regex) := do
  match items.getLast? with
  | none => fail .nothingToRepeat start
  | some item =>
    if item.isAnchor then fail .nothingToRepeat start
    if item.isLoop then fail .multipleRepeat start
    if ← accept '?' then return items.dropLast ++ [.loop min max .fewest item]
    if ← accept '+' then return items.dropLast ++ [.loop min max .committed item]
    return items.dropLast ++ [.loop min max .most item]

/-! ## Groups -/

/-- What the characters after an opening parenthesis say. -/
inductive Opening where
  | capture (name : Option String)
  | plain
  | atomic
  | ahead (negated : Bool)
  | comment
  | backref (number : Nat)

def skipComment (start : Nat) : Nat → Reader Unit
  | 0 => fail .unterminatedComment start
  | fuel + 1 => do
    match ← next? with
    | none => fail .unterminatedComment start
    | some t => if t == .plain ')' then return else skipComment start fuel

def namedReference : Reader Opening := do
  let name ← groupName ')'
  let s ← get
  match s.names.lookup name with
  | none => failBefore (.unknownName name) (name.length + 1)
  | some n =>
    if s.opened.contains n then failBefore .openGroup (name.length + 1)
    return .backref n

/-- The extension after a question mark. -/
def extension (start : Nat) : Reader Opening := do
  match ← next? with
  | none => failBefore .unexpectedEnd 0
  | some (.plain 'P') =>
    if ← accept '<' then return .capture (some (← groupName '>'))
    if ← accept '=' then return ← namedReference
    match ← next? with
    | none => failBefore .unexpectedEnd 0
    | some t => failBefore (.unknownExtension ("?P" ++ t.text)) (t.length + 2)
  | some (.plain ':') => return .plain
  | some (.plain '>') => return .atomic
  | some (.plain '=') => return .ahead false
  | some (.plain '!') => return .ahead true
  | some (.plain '#') =>
    skipComment start ((← remaining) + 1)
    return .comment
  | some (.plain '<') =>
    match ← next? with
    | none => failBefore .unexpectedEnd 0
    | some t =>
      if t == .plain '=' || t == .plain '!' then fail (.unsupported ("?<" ++ t.text)) start
      failBefore (.unknownExtension ("?<" ++ t.text)) (t.length + 2)
  | some t =>
    if "iLmsxau-(".toList.any fun c ↦ t == .plain c then fail (.unsupported ("?" ++ t.text)) start
    failBefore (.unknownExtension ("?" ++ t.text)) (t.length + 1)

def opening (start : Nat) : Reader Opening := do
  if ← accept '?' then extension start else return .capture none

def openGroup (name : Option String) : Reader Nat := do
  let s ← get
  let n := s.groups
  match name with
  | none => set { s with groups := n + 1, opened := n :: s.opened }
  | some name =>
    match s.names.lookup name with
    | some former => failBefore (.repeatedName name n former) (name.length + 1)
    | none => set { s with groups := n + 1, opened := n :: s.opened, names := (name, n) :: s.names }
  return n

def closeGroup (n : Nat) : Reader Unit := modify fun s ↦ { s with opened := s.opened.filter (· != n) }

def expectClose (start : Nat) : Reader Unit := do
  if !(← accept ')') then fail .unterminatedGroup start

/-! ## Expressions -/

def sequence : List Regex → Regex
  | [] => .empty
  | [r] => r
  | r :: rs => .seq r (sequence rs)

mutual
def alternatives : Nat → Reader Regex
  | 0 => return .empty
  | fuel + 1 => do
    let r := sequence (← items fuel [])
    if ← accept '|' then return .alt r (← alternatives fuel)
    return r

/-- The items of a sequence after those already read. -/
def items : Nat → List Regex → Reader (List Regex)
  | 0, acc => return acc
  | fuel + 1, acc => do
    match ← peek? with
    | none => return acc
    | some (.plain '|') => return acc
    | some (.plain ')') => return acc
    | some _ =>
      let start ← position
      match ← next? with
      | none => return acc
      | some .dangling => fail .danglingEscape start
      | some (.escaped c) => items fuel (acc ++ [← escape c])
      | some (.plain '.') => items fuel (acc ++ [.any])
      | some (.plain '^') => items fuel (acc ++ [.anchor .lineStart])
      | some (.plain '$') => items fuel (acc ++ [.anchor .lineEnd])
      | some (.plain '[') => items fuel (acc ++ [← readSet])
      | some (.plain '(') => items fuel (acc ++ (← group fuel start))
      | some (.plain c) =>
        if c == '*' || c == '+' || c == '?' || c == '\x7b' then
          match ← bounds? c with
          | none => items fuel (acc ++ [.char c.toNat])
          | some (min, max) => items fuel (← repeatLast start min max acc)
        else items fuel (acc ++ [.char c.toNat])

/-- A group, after its opening parenthesis. -/
def group : Nat → Nat → Reader (List Regex)
  | 0, _ => return []
  | fuel + 1, start => do
    match ← opening start with
    | .comment => return []
    | .backref n => return [.backref n]
    | .plain =>
      let r ← alternatives fuel
      expectClose start
      return [.group none r]
    | .atomic =>
      let r ← alternatives fuel
      expectClose start
      return [.atomic r]
    | .ahead negated =>
      let r ← alternatives fuel
      expectClose start
      return [.ahead negated r]
    | .capture name =>
      let n ← openGroup name
      let r ← alternatives fuel
      expectClose start
      closeGroup n
      return [.group (some n) r]
end

def pattern : Reader Regex := do
  settle
  let r ← alternatives (3 * (← remaining) + 3)
  if (← peek?).isSome then failBefore .unbalanced 0
  return r

end Reader

/-- The expression that a pattern stands for. -/
def parse (s : String) : Except Invalid Regex :=
  (Reader.pattern.run { rest := Token.ofChars s.toList }).map (·.1)

end Coverage.Regex
