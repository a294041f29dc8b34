import Coverage.Number.Decimal
import Coverage.Text.Quoted

/-!
# Data

Plain values as data formats hold them: configurations, counters and records are read from and written as
such values. A map keeps the order of its pairs.
-/

namespace Coverage

/-- A value of a data format. -/
inductive Datum where
  | null
  | bool (b : Bool)
  | int (n : Int)
  | float (x : Binary64)
  | str (s : String)
  | list (items : List Datum)
  | map (pairs : List (Datum × Datum))

namespace Datum

instance : Inhabited Datum := ⟨null⟩

/-- A map with text keys. -/
def object (pairs : List (String × Datum)) : Datum := map (pairs.map fun p ↦ (str p.1, p.2))

def strings (ss : List String) : Datum := list (ss.map str)

/-- The values of the pairs with a text key. -/
def lookup (key : String) : List (Datum × Datum) → Option Datum
  | [] => none
  | (str k, v) :: rest => if k = key then some v else lookup key rest
  | _ :: rest => lookup key rest

/-- The value under a text key of a map. -/
def get? (key : String) : Datum → Option Datum
  | map pairs => lookup key pairs
  | _ => none

def pairs? : Datum → Option (List (Datum × Datum))
  | map pairs => some pairs
  | _ => none

/-- Empty and zero values are false. -/
def isTrue : Datum → Bool
  | null => false
  | bool b => b
  | int n => n != 0
  | float x => !x.isZero
  | str s => s != ""
  | list items => !items.isEmpty
  | map pairs => !pairs.isEmpty

def typeName : Datum → String
  | null => "NoneType"
  | bool _ => "bool"
  | int _ => "int"
  | float _ => "float"
  | str _ => "str"
  | list _ => "list"
  | map _ => "dict"

mutual
/-- The value as a literal of the language. -/
def literal : Datum → String
  | null => "None"
  | bool true => "True"
  | bool false => "False"
  | int n => toString n
  | float x => Decimal.text x
  | str s => Text.quoted s
  | list items => "[" ++ ", ".intercalate (literals items) ++ "]"
  | map pairs => "\x7b" ++ ", ".intercalate (pairLiterals pairs) ++ "\x7d"

def literals : List Datum → List String
  | [] => []
  | d :: ds => d.literal :: literals ds

def pairLiterals : List (Datum × Datum) → List String
  | [] => []
  | (k, v) :: rest => (k.literal ++ ": " ++ v.literal) :: pairLiterals rest
end

def text : Datum → String
  | str s => s
  | d => d.literal

end Datum

end Coverage
