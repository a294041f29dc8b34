import Coverage.Datum.Validation
import Coverage.Ledger
import Coverage.Text.Digit

/-!
# Counts as data

A ledger is written as a map of files to maps of keys to counts. Reading takes everything that stands for
an integer: texts with digits of any script, truth values, and numbers, of which the fraction is dropped.
-/

namespace Coverage

/-- Why a datum gives no counts. -/
inductive CountsError where
  /-- A map was needed. -/
  | noItems (type : String)
  | badText (text : String)
  | badType (type : String)
  | notANumber
  | infinite
  | tooLong (digits : Nat)
  deriving DecidableEq, Repr

def CountsError.message : CountsError → String
  | noItems type => "'" ++ type ++ "' object has no attribute 'items'"
  | badText text =>
    "invalid literal for int() with base 10: " ++ String.ofList ((Text.quoted text).toList.take 200)
  | badType type =>
    "int() argument must be a string, a bytes-like object or a real number, not '" ++ type ++ "'"
  | notANumber => "cannot convert float NaN to integer"
  | infinite => "cannot convert float infinity to integer"
  | tooLong digits =>
    "Exceeds the limit (4300 digits) for integer string conversion: value has " ++ toString digits ++
      " digits; use sys.set_int_max_str_digits() to increase the limit"

namespace Ledger

/-- The integer that a text stands for. -/
def countOfText (s : String) : Except CountsError Int :=
  let cs := Reading.trim Text.isBlank s.toList
  match Reading.signedValue? Text.digitValue? cs with
  | none => .error (.badText s)
  | some n =>
    let digits := (cs.filter Text.isDigit).length
    if digits > Reading.maxDigits then .error (.tooLong digits) else .ok n

def countOfFloat (x : Binary64) : Except CountsError Int :=
  match x, x.toInt? with
  | _, some n => .ok n
  | .nan, none => .error .notANumber
  | _, none => .error .infinite

/-- The integer that a datum stands for. -/
def countOf : Datum → Except CountsError Int
  | .int n => .ok n
  | .bool b => .ok (if b then 1 else 0)
  | .float x => countOfFloat x
  | .str s => countOfText s
  | d => .error (.badType d.typeName)

def readCounts : Datum → Except CountsError Counts
  | .map pairs => do return .ofList (← pairs.mapM fun p ↦ do return (p.1.text, ← countOf p.2))
  | d => .error (.noItems d.typeName)

def read : Datum → Except CountsError Ledger
  | .map pairs => do return ⟨.ofList (← pairs.mapM fun p ↦ do return (p.1.text, ← readCounts p.2))⟩
  | d => .error (.noItems d.typeName)

def countsDatum (c : Counts) : Datum := .object (c.pairs.map fun p ↦ (p.1, .int p.2))

def toDatum (l : Ledger) : Datum := .object (l.files.pairs.map fun p ↦ (p.1, countsDatum p.2))

end Ledger

end Coverage
