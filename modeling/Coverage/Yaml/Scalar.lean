import Coverage.Datum
import Coverage.Regex.Parser

/-!
# Plain scalars

What a scalar without quotes stands for: the first of the types whose form it has, and otherwise itself.
-/

namespace Coverage.Yaml

/-- Types of scalars that are recognised by their form. -/
inductive ScalarType where
  | bool
  | float
  | int
  | merge
  | null
  | timestamp
  | value
  deriving DecidableEq, Repr

namespace ScalarType

def form : ScalarType → String
  | bool =>
    "^(?:yes|Yes|YES|no|No|NO|true|True|TRUE|false|False|FALSE|on|On|ON|off|Off|OFF)$"
  | float =>
    "^(?:[-+]?(?:[0-9][0-9_]*)\\.[0-9_]*(?:[eE][-+][0-9]+)?" ++
      "|\\.[0-9][0-9_]*(?:[eE][-+][0-9]+)?" ++
      "|[-+]?[0-9][0-9_]*(?::[0-5]?[0-9])+\\.[0-9_]*" ++
      "|[-+]?\\.(?:inf|Inf|INF)|\\.(?:nan|NaN|NAN))$"
  | int =>
    "^(?:[-+]?0b[0-1_]+|[-+]?0[0-7_]+|[-+]?(?:0|[1-9][0-9_]*)" ++
      "|[-+]?0x[0-9a-fA-F_]+|[-+]?[1-9][0-9_]*(?::[0-5]?[0-9])+)$"
  | merge => "^(?:<<)$"
  | null => "^(?:~|null|Null|NULL|)$"
  | timestamp =>
    "^(?:[0-9][0-9][0-9][0-9]-[0-9][0-9]-[0-9][0-9]" ++
      "|[0-9][0-9][0-9][0-9]-[0-9][0-9]?-[0-9][0-9]?(?:[Tt]|[ \\t]+)[0-9][0-9]?:[0-9][0-9]:[0-9][0-9]" ++
      "(?:\\.[0-9]*)?(?:[ \\t]*(?:Z|[-+][0-9][0-9]?(?::[0-9][0-9])?))?)$"
  | value => "^(?:=)$"

/-- The order in which types are tried. -/
def all : List ScalarType := [bool, float, int, merge, null, timestamp, value]

def matches? (t : ScalarType) (s : String) : Bool :=
  match Regex.parse t.form with
  | .ok r => r.search s.toList
  | .error _ => false

end ScalarType

/-- The type of a scalar without quotes; without a type it is text. -/
@[irreducible]
def typeOf? (s : String) : Option ScalarType := ScalarType.all.find? (·.matches? s)

/-! ## Values -/

def digitOf (c : Char) : Nat :=
  if c.isDigit then c.toNat - '0'.toNat
  else if 'a' ≤ c ∧ c ≤ 'f' then c.toNat - 'a'.toNat + 10
  else c.toNat - 'A'.toNat + 10

def valueOf (base : Nat) (ds : List Char) : Nat := ds.foldl (fun n d ↦ base * n + digitOf d) 0

/-- The parts of a text between colons. -/
def parts : List Char → List (List Char)
  | [] => [[]]
  | ':' :: cs => [] :: parts cs
  | c :: cs =>
    match parts cs with
    | [] => [[c]]
    | p :: ps => (c :: p) :: ps

/-- Without its sign, and whether that was a minus. -/
def unsigned : List Char → Bool × List Char
  | '-' :: cs => (true, cs)
  | '+' :: cs => (false, cs)
  | cs => (false, cs)

/-- A whole number in one of its four notations. -/
def natOf : List Char → Nat
  | '0' :: 'b' :: ds => valueOf 2 ds
  | '0' :: 'x' :: ds => valueOf 16 ds
  | '0' :: ds => valueOf 8 ds
  | ds => (parts ds).foldl (fun n p ↦ 60 * n + valueOf 10 p) 0

def intOf (s : String) : Int :=
  let (negative, ds) := unsigned (s.toList.filter (· != '_'))
  if negative then -(natOf ds : Int) else natOf ds

/-- A number with a point and perhaps an exponent. -/
def decimalOf (negative : Bool) (cs : List Char) : Binary64 :=
  let mantissa := cs.takeWhile fun c ↦ c != 'e' && c != 'E'
  let whole := mantissa.takeWhile (· != '.')
  let fraction := (mantissa.dropWhile (· != '.')).drop 1
  let (negativeExponent, ds) := unsigned ((cs.drop mantissa.length).drop 1)
  let e : Int := if negativeExponent then -(valueOf 10 ds : Int) else valueOf 10 ds
  .ofDecimal negative (valueOf 10 (whole ++ fraction)) (e - fraction.length)

/-- A number whose last part in base sixty has a point. -/
def sexagesimalOf (negative : Bool) (ps : List (List Char)) : Binary64 :=
  let last := ps.getLast?.getD []
  let whole := (ps.dropLast ++ [last.takeWhile (· != '.')]).foldl (fun n p ↦ 60 * n + valueOf 10 p) 0
  let fraction := (last.dropWhile (· != '.')).drop 1
  .ofDecimal negative (whole * Nat.pow 10 fraction.length + valueOf 10 fraction) (-(fraction.length : Int))

def floatOf (s : String) : Binary64 :=
  let (negative, cs) := unsigned (s.toList.filter (· != '_'))
  match cs with
  | '.' :: 'i' :: _ => .infinite negative
  | '.' :: 'I' :: _ => .infinite negative
  | '.' :: 'n' :: _ => .nan
  | '.' :: 'N' :: _ => .nan
  | cs => if cs.contains ':' then sexagesimalOf negative (parts cs) else decimalOf negative cs

def boolOf (s : String) : Bool :=
  match s.toList with
  | 'y' :: _ => true
  | 'Y' :: _ => true
  | 't' :: _ => true
  | 'T' :: _ => true
  | [_, 'n'] => true
  | [_, 'N'] => true
  | _ => false

/-- The value of a scalar without quotes. Dates and the two signs with a meaning of their own have none
here. -/
def plainValue? (s : String) : Option Datum :=
  match typeOf? s with
  | none => some (.str s)
  | some .bool => some (.bool (boolOf s))
  | some .float => some (.float (floatOf s))
  | some .int => some (.int (intOf s))
  | some .null => some .null
  | some _ => none

end Coverage.Yaml
