import Coverage.Text.Blank
import Coverage.Text.Digit
import Coverage.Text.Word

/-!
# Regular expressions

Expressions and backtracking search in one line of text. A match is tried alternative by alternative in
the order of preference; possessive repetition and atomic groups commit to the first way they match.
-/

namespace Coverage

/-- A class of characters with a name. -/
inductive CharClass where
  | space
  | digit
  | word
  deriving DecidableEq, Repr

def CharClass.contains : CharClass → Char → Bool
  | space, c => Text.isBlank c
  | digit, c => Text.isDigit c
  | word, c => Text.isWord c

/-- An item of a set. -/
inductive SetItem where
  | range (lo hi : Nat)
  | inClass (negated : Bool) (cls : CharClass)
  deriving DecidableEq, Repr

def SetItem.contains : SetItem → Char → Bool
  | range lo hi, c => lo ≤ c.toNat && c.toNat ≤ hi
  | inClass negated cls, c => cls.contains c != negated

/-- Conditions on a position. -/
inductive Anchor where
  | lineStart
  /-- The end of the text, or before a line feed that ends it. -/
  | lineEnd
  | textStart
  | textEnd
  | wordBoundary (negated : Bool)
  deriving DecidableEq, Repr

/-- How a repetition prefers its number of rounds. -/
inductive Preference where
  | most
  | fewest
  /-- As many as possible, without reconsidering. -/
  | committed
  deriving DecidableEq, Repr

/-- A regular expression. -/
inductive Regex where
  | empty
  | char (code : Nat)
  | any
  | oneOf (negated : Bool) (items : List SetItem)
  | anchor (a : Anchor)
  | seq (first second : Regex)
  | alt (first second : Regex)
  /-- A group in parentheses; one with a number keeps what it matched. -/
  | group (number : Option Nat) (body : Regex)
  | backref (number : Nat)
  | loop (min : Nat) (max : Option Nat) (preference : Preference) (body : Regex)
  | atomic (body : Regex)
  | ahead (negated : Bool) (body : Regex)
  deriving Repr

namespace Regex

/-- A position in a text: the character before it, the text after it, and what groups have kept. -/
structure Cursor where
  before : Option Char
  rest : List Char
  kept : List (Nat × List Char) := []

namespace Cursor

/-- Steps over a character that satisfies `p`. -/
def step (p : Char → Bool) (here : Cursor) : Option Cursor :=
  match here.rest with
  | [] => none
  | c :: cs => if p c then some { here with before := some c, rest := cs } else none

def stepText (here : Cursor) : List Char → Option Cursor
  | [] => some here
  | c :: cs => (here.step (· == c)).bind (·.stepText cs)

def isWordAt (c : Option Char) : Bool := (c.map Text.isWord).getD false

def satisfies (here : Cursor) : Anchor → Bool
  | .lineStart => here.before.isNone
  | .textStart => here.before.isNone
  | .lineEnd => here.rest.isEmpty || here.rest == ['\n']
  | .textEnd => here.rest.isEmpty
  | .wordBoundary negated => (isWordAt here.before != isWordAt here.rest.head?) != negated

/-- Keeps the text between two positions for a group. -/
def keep (number : Nat) (start stop : Cursor) : Cursor :=
  let text := start.rest.take (start.rest.length - stop.rest.length)
  { stop with kept := (number, text) :: stop.kept.filter (·.1 != number) }

end Cursor

/-- A way to go on from a position. -/
abbrev Next := Cursor → Option Cursor

/-- Whether a number of rounds is below the greatest one. -/
def allows : Option Nat → Nat → Bool
  | none, _ => true
  | some max, count => count < max

/-- Rounds of a repetition. `last` is the number of characters that were left before the last round: a
round that consumed nothing is not followed by another. -/
def rounds (body : Cursor → Next → Option Cursor) (min : Nat) (max : Option Nat) (preference : Preference) :
    Nat → Nat → Option Nat → Cursor → Next → Option Cursor
  | 0, _, _, _, _ => none
  | fuel + 1, count, last, here, next =>
    let again (k : Next) : Option Cursor :=
      body here fun there ↦ rounds body min max preference fuel (count + 1) (some here.rest.length) there k
    if count < min then again next
    else if allows max count && last != some here.rest.length then
      match preference with
      | .fewest => (next here).orElse fun _ ↦ again next
      | _ => (again next).orElse fun _ ↦ next here
    else next here

/-- Rounds that each commit to their first match, as many as there are. -/
def committedRounds (body : Cursor → Next → Option Cursor) (min : Nat) (max : Option Nat) :
    Nat → Nat → Cursor → Option Cursor
  | 0, _, _ => none
  | fuel + 1, count, here =>
    if allows max count then
      match body here some with
      | some there =>
        if there.rest.length == here.rest.length && min ≤ count then some there
        else committedRounds body min max fuel (count + 1) there
      | none => if count < min then none else some here
    else some here

/-- Matches at a position and goes on with `next`, in all ways, the preferred one first. -/
def run : Regex → Cursor → Next → Option Cursor
  | empty, here, next => next here
  | char code, here, next => (here.step (·.toNat == code)).bind next
  | any, here, next => (here.step (· != '\n')).bind next
  | oneOf negated items, here, next => (here.step fun c ↦ items.any (·.contains c) != negated).bind next
  | anchor a, here, next => if here.satisfies a then next here else none
  | seq r s, here, next => r.run here fun there ↦ s.run there next
  | alt r s, here, next => (r.run here next).orElse fun _ ↦ s.run here next
  | group none r, here, next => r.run here next
  | group (some n) r, here, next => r.run here fun there ↦ next (here.keep n there)
  | backref n, here, next => ((here.kept.lookup n).bind here.stepText).bind next
  | loop min max .committed r, here, next =>
    (committedRounds r.run min max (min + here.rest.length + 2) 0 here).bind next
  | loop min max preference r, here, next =>
    rounds r.run min max preference (min + here.rest.length + 2) 0 none here next
  | atomic r, here, next => (r.run here some).bind next
  | ahead negated r, here, next => if (r.run here some).isSome != negated then next here else none

/-- Tries to match from each position on. -/
def searchFrom (r : Regex) (before : Option Char) : List Char → Bool
  | [] => (r.run ⟨before, [], []⟩ some).isSome
  | c :: cs => (r.run ⟨before, c :: cs, []⟩ some).isSome || searchFrom r (some c) cs

/-- Whether some part of the text matches. -/
def search (r : Regex) (text : List Char) : Bool := searchFrom r none text

/-- A condition on a position matches no text that could be repeated. -/
def isAnchor : Regex → Bool
  | anchor _ => true
  | _ => false

def isLoop : Regex → Bool
  | loop .. => true
  | _ => false

end Regex

end Coverage
