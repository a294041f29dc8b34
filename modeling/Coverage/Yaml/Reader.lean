import Coverage.Yaml.Scalar
import Coverage.Yaml.Token

/-!
# Reading YAML

The value of a text that holds one document: scalars, block and flow collections. An entry, key or value
without a node is null, and of two pairs with the same key the later one counts.
-/

namespace Coverage.Yaml

/-- Numbers and truth values by their value, as far as they are keys. -/
def numberOf? : Datum → Option (Bool × Nat × Nat)
  | .bool b => some (false, if b then 1 else 0, 1)
  | .int n => some (decide (n < 0), n.natAbs, 1)
  | .float (.finite s m e) =>
    let (n, d) := Binary64.quotient m e
    some (s && m != 0, n, d)
  | _ => none

def sameKey : Datum → Datum → Bool
  | .str a, .str b => a == b
  | .null, .null => true
  | a, b =>
    match numberOf? a, numberOf? b with
    | some (s, n, d), some (t, k, l) => s == t && n * l == k * d
    | _, _ => false

/-- Adds a pair; a pair with the same key keeps its place and gets the new value. -/
def putPair (key value : Datum) : List (Datum × Datum) → List (Datum × Datum)
  | [] => [(key, value)]
  | (k, v) :: rest => if sameKey k key then (k, value) :: rest else (k, v) :: putPair key value rest

/-- Collections are no keys. -/
def isKey : Datum → Bool
  | .list _ => false
  | .map _ => false
  | _ => true

/-! ## Nodes -/

/-- What a text is made of. -/
inductive Tree where
  /-- Nothing, where a node could be. -/
  | empty
  | scalar (plain : Bool) (text : String)
  | list (items : List Tree)
  | map (pairs : List (Tree × Tree))

/-- Where a node is left out. -/
def leftOut (stops : List Token) (tokens : List Token) : Bool :=
  match tokens with
  | [] => true
  | t :: _ => stops.contains t

/-- There is no way to go on. -/
def refuse {α : Type} (tokens : List Token) : Scan α :=
  if tokens.head? == some .broken then .error .badToken else .error .misplacedToken

mutual
/-- A node. In a block there can be block collections; the entries of a sequence can be without
indentation where it is the value of a key. -/
def node (block indentless : Bool) : Nat → List Token → Scan (Tree × List Token)
  | 0, tokens => refuse tokens
  | fuel + 1, tokens =>
    match tokens with
    | .anchor :: rest =>
      match rest with
      | .scalar .. :: _ => node block indentless fuel rest
      | .flowSequenceStart :: _ => node block indentless fuel rest
      | .flowMappingStart :: _ => node block indentless fuel rest
      | .blockSequenceStart :: _ => if block then node block indentless fuel rest else .ok (.empty, rest)
      | .blockMappingStart :: _ => if block then node block indentless fuel rest else .ok (.empty, rest)
      | .anchor :: _ => refuse rest
      | rest => .ok (.empty, rest)
    | .scalar plain text :: rest => .ok (.scalar plain text, rest)
    | .flowSequenceStart :: rest => do
      let (items, rest) ← flowItems true fuel rest
      return (.list items, rest)
    | .flowMappingStart :: rest => do
      let (pairs, rest) ← flowPairs true fuel rest
      return (.map pairs, rest)
    | .blockSequenceStart :: rest =>
      if block then do
        let (items, rest) ← entries fuel rest
        return (.list items, rest)
      else refuse tokens
    | .blockMappingStart :: rest =>
      if block then do
        let (pairs, rest) ← blockPairs fuel rest
        return (.map pairs, rest)
      else refuse tokens
    | .blockEntry :: rest =>
      if indentless then do
        let (items, rest) ← looseEntries fuel (.blockEntry :: rest)
        return (.list items, rest)
      else refuse tokens
    | tokens => refuse tokens

/-- A node that can be left out before one of some tokens. -/
def optional (block indentless : Bool) (stops : List Token) : Nat → List Token → Scan (Tree × List Token)
  | 0, tokens => refuse tokens
  | fuel + 1, tokens =>
    if leftOut stops tokens then .ok (.empty, tokens) else node block indentless fuel tokens

/-- The entries of a block sequence. -/
def entries : Nat → List Token → Scan (List Tree × List Token)
  | 0, tokens => refuse tokens
  | fuel + 1, tokens =>
    match tokens with
    | .blockEntry :: rest => do
      let (d, rest) ← optional true false [.blockEntry, .blockEnd] fuel rest
      let (ds, rest) ← entries fuel rest
      return (d :: ds, rest)
    | .blockEnd :: rest => .ok ([], rest)
    | tokens => refuse tokens

/-- The entries of a sequence without indentation. -/
def looseEntries : Nat → List Token → Scan (List Tree × List Token)
  | 0, tokens => refuse tokens
  | fuel + 1, tokens =>
    match tokens with
    | .blockEntry :: rest => do
      let (d, rest) ← optional true false [.blockEntry, .key, .value, .blockEnd] fuel rest
      let (ds, rest) ← looseEntries fuel rest
      return (d :: ds, rest)
    | tokens => .ok ([], tokens)

def blockPairs : Nat → List Token → Scan (List (Tree × Tree) × List Token)
  | 0, tokens => refuse tokens
  | fuel + 1, tokens =>
    match tokens with
    | .key :: rest => do
      let (k, rest) ← optional true true [.key, .value, .blockEnd] fuel rest
      let (v, rest) ← blockValue fuel rest
      let (pairs, rest) ← blockPairs fuel rest
      return ((k, v) :: pairs, rest)
    | .blockEnd :: rest => .ok ([], rest)
    | tokens => refuse tokens

def blockValue : Nat → List Token → Scan (Tree × List Token)
  | 0, tokens => refuse tokens
  | fuel + 1, tokens =>
    match tokens with
    | .value :: rest => optional true true [.key, .value, .blockEnd] fuel rest
    | tokens => .ok (.empty, tokens)

/-- The value of a pair in a flow collection, up to what ends the pair. -/
def flowValue (stops : List Token) : Nat → List Token → Scan (Tree × List Token)
  | 0, tokens => refuse tokens
  | fuel + 1, tokens =>
    match tokens with
    | .value :: rest => optional false false stops fuel rest
    | tokens => .ok (.empty, tokens)

def flowItems (first : Bool) : Nat → List Token → Scan (List Tree × List Token)
  | 0, tokens => refuse tokens
  | fuel + 1, tokens =>
    match tokens, first with
    | .flowSequenceEnd :: rest, _ => .ok ([], rest)
    | .flowEntry :: rest, false => flowItem fuel rest
    | tokens, false => refuse tokens
    | tokens, true => flowItem fuel tokens

def flowItem : Nat → List Token → Scan (List Tree × List Token)
  | 0, tokens => refuse tokens
  | fuel + 1, tokens =>
    match tokens with
    | .flowSequenceEnd :: rest => .ok ([], rest)
    | .key :: rest => do
      let (k, rest) ← optional false false [.value, .flowEntry, .flowSequenceEnd] fuel rest
      let (v, rest) ← flowValue [.flowEntry, .flowSequenceEnd] fuel rest
      let (ds, rest) ← flowItems false fuel rest
      return (.map [(k, v)] :: ds, rest)
    | tokens => do
      let (d, rest) ← node false false fuel tokens
      let (ds, rest) ← flowItems false fuel rest
      return (d :: ds, rest)

def flowPairs (first : Bool) : Nat → List Token → Scan (List (Tree × Tree) × List Token)
  | 0, tokens => refuse tokens
  | fuel + 1, tokens =>
    match tokens, first with
    | .flowMappingEnd :: rest, _ => .ok ([], rest)
    | .flowEntry :: rest, false => flowPair fuel rest
    | tokens, false => refuse tokens
    | tokens, true => flowPair fuel tokens

def flowPair : Nat → List Token → Scan (List (Tree × Tree) × List Token)
  | 0, tokens => refuse tokens
  | fuel + 1, tokens =>
    match tokens with
    | .flowMappingEnd :: rest => .ok ([], rest)
    | .key :: rest => do
      let (k, rest) ← optional false false [.value, .flowEntry, .flowMappingEnd] fuel rest
      let (v, rest) ← flowValue [.flowEntry, .flowMappingEnd] fuel rest
      let (pairs, rest) ← flowPairs false fuel rest
      return ((k, v) :: pairs, rest)
    | tokens => do
      let (k, rest) ← node false false fuel tokens
      let (pairs, rest) ← flowPairs false fuel rest
      return ((k, .empty) :: pairs, rest)
end

/-- Drops the ends of documents. -/
def skipEnds : List Token → List Token
  | .documentEnd :: rest => skipEnds rest
  | tokens => tokens

/-- Drops directions to the reader. -/
def skipDirectives : List Token → List Token
  | .directive :: rest => skipDirectives rest
  | tokens => tokens

def documentStart (first : Bool) (tokens : List Token) : Scan (Option (List Token)) :=
  match first, tokens with
  | true, .directive :: _ => explicit tokens
  | true, .documentStart :: _ => explicit tokens
  | true, .streamEnd :: _ => explicit tokens
  | true, tokens => .ok (some tokens)
  | false, tokens => explicit tokens
where
  explicit (tokens : List Token) : Scan (Option (List Token)) :=
    match skipEnds tokens with
    | [.streamEnd] => .ok none
    | tokens =>
      match skipDirectives tokens with
      | .documentStart :: rest => .ok (some rest)
      | tokens => refuse tokens

/-- What stands between the marks of a document. -/
def content (tokens : List Token) : Scan (Tree × List Token) :=
  if leftOut [.directive, .documentStart, .documentEnd, .streamEnd] tokens then .ok (.empty, tokens)
  else node true false (6 * tokens.length + 6) tokens

/-! ## Values -/

mutual
/-- The value of a node. Collections cannot be keys. -/
def Tree.value : Tree → Scan Datum
  | .empty => .ok .null
  | .scalar true text =>
    match plainValue? text with
    | some d => .ok d
    | none => .error .badValue
  | .scalar false text => .ok (.str text)
  | .list items => do return .list (← values items)
  | .map pairs => do return .map ((← pairValues pairs).foldl (fun ps p ↦ putPair p.1 p.2 ps) [])

def values : List Tree → Scan (List Datum)
  | [] => .ok []
  | t :: ts => do
    let d ← t.value
    return d :: (← values ts)

def pairValues : List (Tree × Tree) → Scan (List (Datum × Datum))
  | [] => .ok []
  | (k, v) :: rest => do
    let key ← k.value
    if !isKey key then throw .badValue
    let d ← v.value
    return (key, d) :: (← pairValues rest)
end

/-- The value of a text; null if it holds no document. -/
def read (text : String) : Scan Datum := do
  match ← documentStart true (← scan text) with
  | none => return .null
  | some tokens =>
    let (tree, rest) ← content tokens
    match ← documentStart false rest with
    | none => tree.value
    | some _ => throw .severalDocuments

end Coverage.Yaml
