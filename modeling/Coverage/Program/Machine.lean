import Coverage.Program.Problem

/-!
# Running programs: state and steps

A run changes memory, the variables of the module and the ledgers, and keeps a history of what happened at
which node. A step ends with a value, with an exception, or not at all: code outside the fragment and loops
without end are told apart from exceptions, which a program can catch.
-/

namespace Coverage.Program

open Syntax (NodeId)

/-- What happens in a run. -/
inductive Event where
  /-- A statement starts. -/
  | started (id : NodeId)
  /-- The body of a function is entered. -/
  | entered (id : NodeId)
  /-- An arm of a construct is taken. Arms count from zero: the body of an `if`, then its `else`, written or
  not; the operands of an expression, when their evaluation begins; the cases of a `match`, then no case;
  another round of a loop, then its end other than by leaving it; the end of the body of a `try` without an
  exception, then with one. -/
  | took (id : NodeId) (arm : Nat)
  deriving DecidableEq, Repr

/-- What outlives a run. -/
structure Memory where
  heap : Heap := #[]
  /-- The variables of calls. -/
  frames : Array Namespace := #[]
  ledgers : Array Ledger := #[]

instance : Inhabited Memory := ⟨{}⟩

/-- What a run changes. -/
structure State extends Memory where
  globals : Namespace := {}
  /-- Exceptions that are being handled, the latest first. -/
  handled : List Value := []
  /-- What happened, the latest first. -/
  history : List Event := []

/-- Why a step has no value. -/
inductive Halt where
  | raised (exception : Value)
  /-- A bound on loops and calls was reached. -/
  | outOfFuel
  /-- Foreign code, or an operation outside the fragment. -/
  | stuck
  deriving DecidableEq, Repr

/-- A step of a run. -/
abbrev Step (α : Type) := ExceptT Halt (StateM State) α

def stuck {α : Type} : Step α := throw .stuck

def record (e : Event) : Step Unit := modify fun s ↦ { s with history := e :: s.history }

/-! ## Memory -/

/-- Puts a new object into memory. -/
def allocate (o : Object) : Step Value :=
  modifyGet fun s ↦ (.object s.heap.size, { s with heap := s.heap.push o })

def replace (r : Ref) (o : Object) : Step Unit := modify fun s ↦ { s with heap := s.heap.setIfInBounds r o }

def pushFrame (ns : Namespace) : Step Nat :=
  modifyGet fun s ↦ (s.frames.size, { s with frames := s.frames.push ns })

def modifyFrame (frame : Nat) (f : Namespace → Namespace) : Step Unit :=
  modify fun s ↦ { s with frames := s.frames.modify frame f }

def modifyLedger (l : LedgerId) (f : Ledger → Ledger) : Step Unit :=
  modify fun s ↦ { s with ledgers := s.ledgers.modify l f }

/-- What a function of the heap says now. -/
def look {α : Type} (f : Heap → α) : Step α := return f (← get).heap

/-! ## Exceptions -/

def throwValue {α : Type} (exception : Value) : Step α := throw (.raised exception)

/-- Raises the exception for a problem. -/
def fail {α : Type} (p : Problem) : Step α := do
  throwValue (← allocate (.exception p.cls [.str p.message]))

/-- The result of a computation that can fail. -/
def orFail {α : Type} : Except Problem α → Step α
  | .ok a => pure a
  | .error p => fail p

def attempt {α : Type} (x : Step α) : Step (Except Value α) :=
  tryCatch (Except.ok <$> x) fun
    | .raised e => return .error e
    | halt => throw halt

/-- Goes on as an attempt ended. -/
def resume {α : Type} : Except Value α → Step α
  | .ok a => return a
  | .error e => throwValue e

def handling {α : Type} (exception : Value) (x : Step α) : Step α := do
  modify fun s ↦ { s with handled := exception :: s.handled }
  let result ← attempt x
  modify fun s ↦ { s with handled := s.handled.tail }
  resume result

/-! ## Variables -/

/-- Where a variable lives. -/
inductive Home where
  | module
  /-- A frame; `own` tells the function that runs from those around it. -/
  | frame (frame : Nat) (own : Bool)
  deriving DecidableEq, Repr

/-- Where a name lives for code in functions around. -/
def outerHome (x : String) : Env → Home
  | [] => .module
  | s :: env =>
    if s.globals.contains x then .module
    else if s.locals.contains x then .frame s.frame false
    else outerHome x env

/-- Where a name lives. -/
def home (x : String) : Env → Home
  | [] => .module
  | s :: env =>
    if s.globals.contains x then .module
    else if s.locals.contains x then .frame s.frame true
    else outerHome x env

/-- The functions and classes that every program can use. -/
def builtin? (x : String) : Option Value :=
  match x with
  | "len" => some (.builtin .len)
  | "range" => some (.builtin .range)
  | x => (ExceptionClass.all.find? (·.name == x)).map .cls

/-- Binds a name. A run looks for the functions of the language once, at its start, so a program that gives their
variable another value is outside the fragment. -/
def bind (env : Env) (x : String) (v : Value) : Step Unit :=
  match home x env with
  | .module => if x = builtinsName then stuck else modify fun s ↦ { s with globals := s.globals.put x v }
  | .frame frame _ => modifyFrame frame (·.put x v)

def bindAll (env : Env) (v : Value) : List String → Step Unit
  | [] => return
  | x :: xs => do
    bind env x v
    bindAll env v xs

def bindPairs (env : Env) : List (String × Value) → Step Unit
  | [] => return
  | (x, v) :: rest => do
    bind env x v
    bindPairs env rest

/-- Makes a name lose its value. -/
def unbind (env : Env) (x : String) : Step Unit :=
  match home x env with
  | .module => if x = builtinsName then stuck else modify fun s ↦ { s with globals := s.globals.erase x }
  | .frame frame _ => modifyFrame frame (·.erase x)

end Coverage.Program
