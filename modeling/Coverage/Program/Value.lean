import Coverage.Ledger.Registry
import Coverage.Program.Syntax

/-!
# Values

Constants, classes and counters are values by themselves. Lists, tuples, exceptions and functions live in
memory, and a value only points at them: two values are the same object exactly when they are equal.
-/

namespace Coverage.Program

open Syntax (NodeId)

/-- The classes of exceptions. -/
inductive ExceptionClass where
  | base | exception | arithmeticError | zeroDivisionError | lookupError | indexError | keyError
  | valueError | typeError | runtimeError | assertionError | attributeError | nameError
  | unboundLocalError | systemExit
  deriving DecidableEq, Repr

namespace ExceptionClass

def name : ExceptionClass → String
  | base => "BaseException"
  | exception => "Exception"
  | arithmeticError => "ArithmeticError"
  | zeroDivisionError => "ZeroDivisionError"
  | lookupError => "LookupError"
  | indexError => "IndexError"
  | keyError => "KeyError"
  | valueError => "ValueError"
  | typeError => "TypeError"
  | runtimeError => "RuntimeError"
  | assertionError => "AssertionError"
  | attributeError => "AttributeError"
  | nameError => "NameError"
  | unboundLocalError => "UnboundLocalError"
  | systemExit => "SystemExit"

def all : List ExceptionClass :=
  [base, exception, arithmeticError, zeroDivisionError, lookupError, indexError, keyError, valueError,
    typeError, runtimeError, assertionError, attributeError, nameError, unboundLocalError, systemExit]

/-- The classes that a class belongs to, from itself to the most general. -/
def lineage : ExceptionClass → List ExceptionClass
  | base => [base]
  | exception => [exception, base]
  | zeroDivisionError => [zeroDivisionError, arithmeticError, exception, base]
  | indexError => [indexError, lookupError, exception, base]
  | keyError => [keyError, lookupError, exception, base]
  | unboundLocalError => [unboundLocalError, nameError, exception, base]
  | systemExit => [systemExit, base]
  | c => [c, exception, base]

/-- Whether a class is another one or a special case of it. -/
def isA (c d : ExceptionClass) : Bool := c.lineage.contains d

end ExceptionClass

/-- Functions of the language itself. -/
inductive Builtin where
  | len | range
  deriving DecidableEq, Repr

/-- The position of an object in memory. -/
abbrev Ref := Nat

inductive Value where
  | const (c : Literal)
  | object (r : Ref)
  | cls (c : ExceptionClass)
  | builtin (b : Builtin)
  | range (start stop step : Int)
  /-- The operation that adds an item to a list. -/
  | append (list : Ref)
  | ledger (l : LedgerId)
  /-- The operation that counts a key. -/
  | hit (l : LedgerId)
  /-- The operation that makes a guard. -/
  | guard (l : LedgerId)
  /-- A guard, which counts one of two keys when its block is left. -/
  | guardOf (l : LedgerId) (file : String) (ok error : Key)
  /-- What an import from `__future__` binds. -/
  | feature
  deriving DecidableEq, Repr

instance : Inhabited Value := ⟨.const .none⟩

namespace Value

def none : Value := .const .none

def bool (b : Bool) : Value := .const (.bool b)

def int (n : Int) : Value := .const (.int n)

def str (s : String) : Value := .const (.str s)

/-- The whole number that a value counts as. -/
def int? : Value → Option Int
  | .const (.int n) => some n
  | .const (.bool b) => some (if b then 1 else 0)
  | _ => Option.none

/-- Whether values that are equal are one object. Numbers, texts and ranges can be there more than once, and so can
the operations of an object. -/
def isObject : Value → Bool
  | .const (.int _) | .const (.str _) | .range .. | .append _ | .hit _ | .guard _ | .guardOf .. | .feature => false
  | _ => true

/-- Whether a value is told from others by what it holds. A guard and a feature are equal to themselves only. -/
def isPlain : Value → Bool
  | .guardOf .. | .feature => false
  | _ => true

end Value

/-- Variables with their values. -/
abbrev Namespace := OrderedMap String Value

/-- The variable that leads to the functions and classes of the language, if it has another value than usual. -/
def builtinsName : String := "__builtins__"

/-- A call that is running or that a function was made in: its frame and the names that live there, and the
names that it declares global. -/
structure Scope where
  name : String
  frame : Nat
  locals : List String
  globals : List String

/-- The scopes around a piece of code, the nearest first. At the level of a module there are none. -/
abbrev Env := List Scope

/-- What a function does. -/
inductive Body where
  | block (ss : List Stmt)
  | expr (e : Expr)

/-- A function with the surroundings it was made in. -/
structure Closure where
  id : NodeId
  name : String
  /-- The name with the functions around it. -/
  fullName : String
  params : List String
  /-- The values of the last parameters when they are not given. -/
  defaults : List Value
  body : Body
  locals : List String
  globals : List String
  env : Env

/-- What lives in memory. -/
inductive Object where
  | list (items : Array Value)
  | tuple (items : Array Value)
  | exception (cls : ExceptionClass) (args : List Value)
  | function (f : Closure)

/-- All objects. -/
abbrev Heap := Array Object

namespace Heap

def list? (h : Heap) : Value → Option (Array Value)
  | .object r =>
    match h[r]? with
    | some (.list items) => some items
    | _ => none
  | _ => none

def tuple? (h : Heap) : Value → Option (Array Value)
  | .object r =>
    match h[r]? with
    | some (.tuple items) => some items
    | _ => none
  | _ => none

def exception? (h : Heap) : Value → Option (ExceptionClass × List Value)
  | .object r =>
    match h[r]? with
    | some (.exception c args) => some (c, args)
    | _ => none
  | _ => none

def function? (h : Heap) : Value → Option Closure
  | .object r =>
    match h[r]? with
    | some (.function f) => some f
    | _ => none
  | _ => none

def objectType : Object → String
  | .list _ => "list"
  | .tuple _ => "tuple"
  | .exception c _ => c.name
  | .function _ => "function"

def constantType : Literal → String
  | .none => "NoneType"
  | .bool _ => "bool"
  | .int _ => "int"
  | .str _ => "str"
  | .ellipsis => "ellipsis"

def typeName (h : Heap) : Value → String
  | .const c => constantType c
  | .object r => ((h[r]?).map objectType).getD "object"
  | .cls _ => "type"
  | .builtin .len => "builtin_function_or_method"
  | .builtin .range => "type"
  | .range _ _ _ => "range"
  | .append _ => "builtin_function_or_method"
  | .ledger _ => "CoverageStore"
  | .hit _ => "method"
  | .guard _ => "method"
  | .guardOf _ _ _ _ => "_TryGuard"
  | .feature => "_Feature"

/-! ## Sequences -/

/-- How many numbers a range has. -/
def rangeLength (start stop step : Int) : Nat :=
  if 0 < step then ((stop - start + step - 1).fdiv step).toNat
  else if step < 0 then ((start - stop - step - 1).fdiv (-step)).toNat
  else 0

def length? (h : Heap) : Value → Option Nat
  | .const (.str s) => some s.length
  | .range start stop step => some (rangeLength start stop step)
  | v => ((h.list? v).or (h.tuple? v)).map Array.size

/-- The item of a sequence at a position. -/
def item? (h : Heap) (v : Value) (i : Nat) : Option Value :=
  match v with
  | .const (.str s) => (s.toList[i]?).map fun c ↦ .str (String.singleton c)
  | .range start stop step => if i < rangeLength start stop step then some (.int (start + i * step)) else none
  | v => ((h.list? v).or (h.tuple? v)).bind (·[i]?)

def items? (h : Heap) (v : Value) : Option (Array Value) :=
  match v with
  | .const (.str s) => some (s.toList.map fun c ↦ .str (String.singleton c)).toArray
  | .range start stop step =>
    some ((List.range (rangeLength start stop step)).map fun i : Nat ↦ .int (start + i * step)).toArray
  | v => (h.list? v).or (h.tuple? v)

/-! ## Truth -/

def isTrue (h : Heap) : Value → Bool
  | .const .none => false
  | .const (.bool b) => b
  | .const (.int n) => n != 0
  | v =>
    match h.length? v with
    | some n => n != 0
    | none => true

/-! ## Text -/

def constantText : Literal → String
  | .none => "None"
  | .bool b => if b then "True" else "False"
  | .int n => toString n
  | .str s => Text.quoted s
  | .ellipsis => "Ellipsis"

/-- Items in brackets; a lone item of a tuple has a comma behind it. -/
def tupleText : List String → String
  | [item] => "(" ++ item ++ ",)"
  | items => "(" ++ ", ".intercalate items ++ ")"

/-- A value as it would be written in a program. The objects that the value is part of are not written once
more. -/
def literal (h : Heap) : Nat → List Ref → Value → String
  | 0, _, _ => "..."
  | fuel + 1, outer, v =>
    match v with
    | .const c => constantText c
    | .object r =>
      match h[r]? with
      | some (.list items) =>
        if outer.contains r then "[...]"
        else "[" ++ ", ".intercalate (items.toList.map (h.literal fuel (r :: outer))) ++ "]"
      | some (.tuple items) =>
        if outer.contains r then "(...)" else tupleText (items.toList.map (h.literal fuel (r :: outer)))
      | some (.exception c args) =>
        c.name ++ "(" ++ ", ".intercalate (args.map (h.literal fuel (r :: outer))) ++ ")"
      | some (.function f) => "<function " ++ f.fullName ++ ">"
      | none => "<object>"
    | .cls c => "<class '" ++ c.name ++ "'>"
    | .builtin .len => "<built-in function len>"
    | .builtin .range => "<class 'range'>"
    | .range start stop step =>
      "range(" ++ toString start ++ ", " ++ toString stop ++
        (if step == 1 then "" else ", " ++ toString step) ++ ")"
    | v => "<" ++ h.typeName v ++ " object>"

/-- A value as a text. A text is its own text; an exception has the text of what it was made with. -/
def text (h : Heap) : Nat → Value → String
  | 0, _ => "..."
  | fuel + 1, v =>
    match v with
    | .const (.str s) => s
    | v =>
      match h.exception? v with
      | some (_, []) => ""
      | some (.keyError, [arg]) => h.literal (h.size + 1) [] arg
      | some (_, [arg]) => h.text fuel arg
      | some (_, args) => tupleText (args.map (h.literal (h.size + 1) []))
      | none => h.literal (h.size + 1) [] v

def message (h : Heap) (v : Value) : String := h.text (h.size + 1) v

end Heap

end Coverage.Program
