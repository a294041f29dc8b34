import Coverage.Program.Value

/-!
# What can go wrong

The exceptions that the language itself raises, by their causes. A type is given by its name.
-/

namespace Coverage.Program

/-- Why a step of a program fails. -/
inductive Problem where
  /-- A name that is bound nowhere. -/
  | unknownName (x : String)
  /-- A variable of the function itself that has no value. -/
  | unboundLocal (x : String)
  /-- A variable of a function around that has no value. -/
  | unboundOuter (x : String)
  | divisionByZero
  | moduloByZero
  | operands (symbol left right : String)
  | operand (type : String)
  | concatenation (type other : String)
  | repetition (type : String)
  | unusedArguments
  | incomparable (symbol left right : String)
  | notIterable (type : String)
  | notSearchable (type : String)
  | notSubstring (type : String)
  | notSubscriptable (type : String)
  | indexOutOfRange (type : String)
  | indexType (type index : String)
  | noLength (type : String)
  | noInteger (type : String)
  | zeroStep
  | noAttribute (type name : String)
  | notCallable (type : String)
  | missingArguments (function : String) (params : List String)
  | tooManyArguments (function : String) (least most given : Nat)
  /-- A function of the language that takes a fixed number of arguments. -/
  | argumentCount (function : String) (given : Nat)
  | tooFewForRange
  | tooManyForRange (given : Nat)
  | notException
  | notCatchable
  | nothingToRaise
  | noContext (type : String)
  | notModule (type : String)
  deriving DecidableEq, Repr

namespace Problem

def cls : Problem → ExceptionClass
  | unknownName _ => .nameError
  | unboundLocal _ => .unboundLocalError
  | unboundOuter _ => .nameError
  | divisionByZero => .zeroDivisionError
  | moduloByZero => .zeroDivisionError
  | indexOutOfRange _ => .indexError
  | zeroStep => .valueError
  | noAttribute _ _ => .attributeError
  | nothingToRaise => .runtimeError
  | _ => .typeError

/-- A word for a number of things. -/
def plural (word : String) (n : Nat) : String := if n == 1 then word else word ++ "s"

/-- Names in quotes, with an `and` before the last. -/
def enumeration (names : List String) : String :=
  match names.map fun x ↦ "'" ++ x ++ "'" with
  | [] => ""
  | [a] => a
  | [a, b] => a ++ " and " ++ b
  | quoted => ", ".intercalate quoted.dropLast ++ ", and " ++ quoted.getLast?.getD ""

def message : Problem → String
  | unknownName x => "name '" ++ x ++ "' is not defined"
  | unboundLocal x => "cannot access local variable '" ++ x ++ "' where it is not associated with a value"
  | unboundOuter x =>
    "cannot access free variable '" ++ x ++ "' where it is not associated with a value in enclosing scope"
  | divisionByZero => "integer division or modulo by zero"
  | moduloByZero => "integer modulo by zero"
  | operands symbol left right =>
    "unsupported operand type(s) for " ++ symbol ++ ": '" ++ left ++ "' and '" ++ right ++ "'"
  | operand type => "bad operand type for unary -: '" ++ type ++ "'"
  | concatenation type other => "can only concatenate " ++ type ++ " (not \"" ++ other ++ "\") to " ++ type
  | repetition type => "can't multiply sequence by non-int of type '" ++ type ++ "'"
  | unusedArguments => "not all arguments converted during string formatting"
  | incomparable symbol left right =>
    "'" ++ symbol ++ "' not supported between instances of '" ++ left ++ "' and '" ++ right ++ "'"
  | notIterable type => "'" ++ type ++ "' object is not iterable"
  | notSearchable type => "argument of type '" ++ type ++ "' is not iterable"
  | notSubstring type => "'in <string>' requires string as left operand, not " ++ type
  | notSubscriptable type => "'" ++ type ++ "' object is not subscriptable"
  | indexOutOfRange type =>
    (if type == "str" then "string" else if type == "range" then "range object" else type) ++
      " index out of range"
  | indexType type index =>
    if type == "str" then "string indices must be integers, not '" ++ index ++ "'"
    else type ++ " indices must be integers or slices, not " ++ index
  | noLength type => "object of type '" ++ type ++ "' has no len()"
  | noInteger type => "'" ++ type ++ "' object cannot be interpreted as an integer"
  | zeroStep => "range() arg 3 must not be zero"
  | noAttribute type name => "'" ++ type ++ "' object has no attribute '" ++ name ++ "'"
  | notCallable type => "'" ++ type ++ "' object is not callable"
  | missingArguments function params =>
    function ++ "() missing " ++ toString params.length ++ " required positional " ++
      plural "argument" params.length ++ ": " ++ enumeration params
  | tooManyArguments function least most given =>
    function ++ "() takes " ++
      (if least == most then toString most ++ " positional " ++ plural "argument" most
        else "from " ++ toString least ++ " to " ++ toString most ++ " positional arguments") ++
      " but " ++ toString given ++ (if given == 1 then " was given" else " were given")
  | argumentCount function given =>
    function ++ "() takes exactly one argument (" ++ toString given ++ " given)"
  | tooFewForRange => "range expected at least 1 argument, got 0"
  | tooManyForRange given => "range expected at most 3 arguments, got " ++ toString given
  | notException => "exceptions must derive from BaseException"
  | notCatchable => "catching classes that do not inherit from BaseException is not allowed"
  | nothingToRaise => "No active exception to reraise"
  | noContext type => "'" ++ type ++ "' object does not support the context manager protocol"
  | notModule type => "expected Module node, got " ++ type

end Problem

end Coverage.Program
