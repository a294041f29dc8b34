import Coverage.Datum
import Coverage.Text.Blank

/-!
# Reading values by a schema

A reader turns a datum into a value of a type or says what is wrong with it. All issues of a map are
collected, in the order of its schema's fields. Integers are read leniently: truth values, numbers without
a fraction and decimal texts stand for integers.
-/

namespace Coverage

/-- A step on the way to a part of a datum. -/
inductive PathStep where
  | field (name : String)
  | index (i : Nat)
  deriving DecidableEq, Repr

/-- What can be wrong with a datum. -/
inductive Defect where
  | missing
  | intType
  | intParsing
  | intFromFloat
  | intParsingSize
  | finiteNumber
  | stringType
  | listType
  | modelType
  | enum
  | greaterThanEqual
  deriving DecidableEq, Repr

def Defect.code : Defect → String
  | missing => "missing"
  | intType => "int_type"
  | intParsing => "int_parsing"
  | intFromFloat => "int_from_float"
  | intParsingSize => "int_parsing_size"
  | finiteNumber => "finite_number"
  | stringType => "string_type"
  | listType => "list_type"
  | modelType => "model_type"
  | enum => "enum"
  | greaterThanEqual => "greater_than_equal"

/-- A defect and where it is. -/
structure Issue where
  path : List PathStep
  defect : Defect
  deriving DecidableEq, Repr

/-- A value, or everything that is wrong. -/
abbrev Reading (α : Type) := Except (List Issue) α

namespace Reading

def fail {α : Type} (d : Defect) : Reading α := .error [⟨[], d⟩]

/-- Issues of a part are issues of the whole. -/
def under {α : Type} (step : PathStep) : Reading α → Reading α
  | .ok a => .ok a
  | .error issues => .error (issues.map fun i ↦ { i with path := step :: i.path })

/-- Both values, or the issues of both. -/
def both {α β : Type} : Reading α → Reading β → Reading (α × β)
  | .ok a, .ok b => .ok (a, b)
  | .ok _, .error is => .error is
  | .error is, .ok _ => .error is
  | .error is, .error js => .error (is ++ js)

def items {α : Type} (read : Datum → Reading α) : Nat → List Datum → Reading (List α)
  | _, [] => .ok []
  | i, d :: ds => (both (under (.index i) (read d)) (items read (i + 1) ds)).map fun p ↦ p.1 :: p.2

def list {α : Type} (read : Datum → Reading α) : Datum → Reading (List α)
  | .list ds => items read 0 ds
  | _ => fail .listType

/-- The pairs of a map. -/
def model {α : Type} (read : List (Datum × Datum) → Reading α) : Datum → Reading α
  | .map pairs => read pairs
  | _ => fail .modelType

def field {α : Type} (name : String) (read : Datum → Reading α) (pairs : List (Datum × Datum)) : Reading α :=
  under (.field name) <|
    match Datum.lookup name pairs with
    | some d => read d
    | none => fail .missing

/-- A field that stands for `default` where it is absent. -/
def fieldOr {α : Type} (name : String) (default : α) (read : Datum → Reading α)
    (pairs : List (Datum × Datum)) : Reading α :=
  under (.field name) <|
    match Datum.lookup name pairs with
    | some d => read d
    | none => .ok default

def nullable {α : Type} (read : Datum → Reading α) : Datum → Reading (Option α)
  | .null => .ok none
  | d => (read d).map some

def str : Datum → Reading String
  | .str s => .ok s
  | _ => fail .stringType

/-- One of finitely many values by its name. -/
def named {α : Type} (ofName? : String → Option α) : Datum → Reading α
  | .str s =>
    match ofName? s with
    | some a => .ok a
    | none => fail .enum
  | _ => fail .enum

/-! ## Integers -/

/-- Blanks around a number: the information separators do not count as such. -/
def isMargin (c : Char) : Bool := Text.isBlank c && !(0x1c ≤ c.toNat && c.toNat ≤ 0x1f)

def trim (isSpace : Char → Bool) (cs : List Char) : List Char :=
  ((cs.dropWhile isSpace).reverse.dropWhile isSpace).reverse

/-- Digits, with single underscores between them. -/
def digitsValue? (digit? : Char → Option Nat) (n : Nat) : List Char → Option Nat
  | [] => none
  | [c] => (digit? c).map (10 * n + ·)
  | c :: '_' :: cs =>
    match digit? c with
    | some d => digitsValue? digit? (10 * n + d) cs
    | none => none
  | c :: cs =>
    match digit? c with
    | some d => digitsValue? digit? (10 * n + d) cs
    | none => none

/-- A number with an optional sign. -/
def signedValue? (digit? : Char → Option Nat) : List Char → Option Int
  | '-' :: cs => (digitsValue? digit? 0 cs).map fun n ↦ -(n : Int)
  | '+' :: cs => (digitsValue? digit? 0 cs).map fun n ↦ (n : Int)
  | cs => (digitsValue? digit? 0 cs).map fun n ↦ (n : Int)

def asciiDigit? (c : Char) : Option Nat := if c.isDigit then some (c.toNat - '0'.toNat) else none

/-- Drops a point that only zeros follow. -/
def dropPoint (cs : List Char) : List Char :=
  match cs.span (· != '.') with
  | (whole, '.' :: zeros) => if zeros.all (· == '0') then whole else cs
  | _ => cs

/-- The longest text that is read as an integer. -/
def maxDigits : Nat := 4300

def intOfText (s : String) : Reading Int :=
  let cs := trim isMargin s.toList
  if cs.length > maxDigits then fail .intParsingSize
  else
    match signedValue? asciiDigit? (dropPoint cs) with
    | some n => .ok n
    | none => fail .intParsing

def intOfFloat (x : Binary64) : Reading Int :=
  match x.toInt? with
  | none => fail .finiteNumber
  | some n =>
    if !x.isIntegral then fail .intFromFloat
    else if -9223372036854775808 ≤ n ∧ n < 9223372036854775808 then .ok n
    else fail .intParsingSize

def int : Datum → Reading Int
  | .int n => .ok n
  | .bool b => .ok (if b then 1 else 0)
  | .float x => intOfFloat x
  | .str s => intOfText s
  | _ => fail .intType

end Reading

end Coverage
