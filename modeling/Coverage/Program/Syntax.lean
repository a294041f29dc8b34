import Coverage.Syntax.Node

/-!
# Programs

The fragment of the language that can be run. Statements and expressions that count as units or have arms
keep the identity of their node, so that a run can say what happened at which node. Code outside the
fragment is `foreign`: a run that reaches it is stuck.
-/

namespace Coverage.Program

open Syntax (Constant NodeId)

/-- The constants of a program. Numbers with a fraction and sequences of bytes are outside the fragment. -/
inductive Literal where
  | none
  | bool (b : Bool)
  | int (n : Int)
  | str (s : String)
  | ellipsis
  deriving DecidableEq, Repr

namespace Literal

def ofConstant? : Constant → Option Literal
  | .none => some none
  | .bool b => some (bool b)
  | .int n => some (int n)
  | .str s => some (str s)
  | .ellipsis => some ellipsis
  | .float _ | .complex _ | .bytes _ => Option.none

def toConstant : Literal → Constant
  | none => .none
  | bool b => .bool b
  | int n => .int n
  | str s => .str s
  | ellipsis => .ellipsis

end Literal

inductive Arith where
  | add | sub | mul | floorDiv | mod
  deriving DecidableEq, Repr

def Arith.symbol : Arith → String
  | add => "+"
  | sub => "-"
  | mul => "*"
  | floorDiv => "//"
  | mod => "%"

/-- Comparisons. -/
inductive Relation where
  | eq | ne | lt | le | gt | ge | same | notSame | mem | notMem
  deriving DecidableEq, Repr

/-- Operators on one operand. -/
inductive Unary where
  | not | neg
  deriving DecidableEq, Repr

/-- Operators that stop as soon as their value is known. -/
inductive Logic where
  | and | or
  deriving DecidableEq, Repr

inductive Expr where
  | const (c : Literal)
  | name (x : String)
  | arith (op : Arith) (left right : Expr)
  | unary (op : Unary) (e : Expr)
  /-- A chain of comparisons, with as many relations as further operands. -/
  | compare (first : Expr) (relations : List Relation) (rest : List Expr)
  | logic (id : NodeId) (op : Logic) (operands : List Expr)
  | ifElse (id : NodeId) (test body orelse : Expr)
  | call (f : Expr) (args : List Expr)
  | lambda (id : NodeId) (params : List String) (defaults : List Expr) (body : Expr)
  | list (items : List Expr)
  | tuple (items : List Expr)
  | collect (item : Expr) (target : String) (source : Expr) (conditions : List Expr)
  | item (e index : Expr)
  | attribute (e : Expr) (name : String)
  | foreign

instance : Inhabited Expr := ⟨.foreign⟩

/-- Patterns of a `match`. -/
inductive Pattern where
  | value (e : Expr)
  /-- The very constant. -/
  | singleton (c : Literal)
  | any
  /-- Binds the subject, if it matches the inner pattern. -/
  | capture (inner : Pattern) (name : String)
  | or (alternatives : List Pattern)
  | foreign

instance : Inhabited Pattern := ⟨.foreign⟩

mutual
inductive Stmt where
  | expr (id : NodeId) (e : Expr)
  | assign (id : NodeId) (targets : List String) (value : Expr)
  | augment (id : NodeId) (target : String) (op : Arith) (value : Expr)
  | ifElse (id : NodeId) (test : Expr) (body orelse : List Stmt)
  | whileLoop (id : NodeId) (test : Expr) (body orelse : List Stmt)
  | forLoop (id : NodeId) (target : String) (source : Expr) (body orelse : List Stmt)
  | breakLoop (id : NodeId)
  | continueLoop (id : NodeId)
  | pass (id : NodeId)
  | giveBack (id : NodeId) (value : Option Expr)
  | define (id : NodeId) (name : String) (params : List String) (defaults : List Expr) (body : List Stmt)
  | global (id : NodeId) (names : List String)
  | raise (id : NodeId) (exception : Option Expr)
  | attempt (id : NodeId) (body : List Stmt) (handlers : List Handler) (orelse final : List Stmt)
  | choose (id : NodeId) (subject : Expr) (cases : List Case)
  /-- Names bound by an import from `__future__`. -/
  | future (id : NodeId) (names : List String)
  /-- A `with` block. -/
  | guarded (id : NodeId) (manager : Expr) (body : List Stmt)
  | foreign (id : NodeId)

inductive Handler where
  | mk (types : Option Expr) (name : Option String) (body : List Stmt)

inductive Case where
  | mk (pattern : Pattern) (guard : Option Expr) (body : List Stmt)
end

instance : Inhabited Stmt := ⟨.foreign 0⟩

namespace Stmt

/-- The identity of the node of a statement. -/
def id : Stmt → NodeId
  | expr i _ | assign i _ _ | augment i _ _ _ | ifElse i _ _ _ | whileLoop i _ _ _ | forLoop i _ _ _ _
  | breakLoop i | continueLoop i | pass i | giveBack i _ | define i _ _ _ _ | global i _ | raise i _
  | attempt i _ _ _ _ | choose i _ _ | future i _ | guarded i _ _ | foreign i => i

end Stmt

/-! ## Names -/

def Pattern.names : Pattern → List String
  | .capture inner x => x :: inner.names
  | .or alternatives =>
    match alternatives with
    | [] => []
    | p :: _ => p.names
  | _ => []

mutual
/-- The names that a statement binds in its own scope. -/
def Stmt.bound : Stmt → List String
  | .assign _ targets _ => targets
  | .augment _ target _ _ => [target]
  | .ifElse _ _ body orelse => boundAll body ++ boundAll orelse
  | .whileLoop _ _ body orelse => boundAll body ++ boundAll orelse
  | .forLoop _ target _ body orelse => target :: (boundAll body ++ boundAll orelse)
  | .define _ name _ _ _ => [name]
  | .attempt _ body handlers orelse final =>
    boundAll body ++ boundHandlers handlers ++ boundAll orelse ++ boundAll final
  | .choose _ _ cases => boundCases cases
  | .future _ names => names
  | .guarded _ _ body => boundAll body
  | _ => []

/-- The names that a block binds in its own scope. -/
def boundAll : List Stmt → List String
  | [] => []
  | s :: ss => s.bound ++ boundAll ss

def boundHandlers : List Handler → List String
  | [] => []
  | .mk _ name body :: hs => name.toList ++ boundAll body ++ boundHandlers hs

def boundCases : List Case → List String
  | [] => []
  | .mk pattern _ body :: cs => pattern.names ++ boundAll body ++ boundCases cs
end

mutual
/-- The names that a statement declares global. -/
def Stmt.declared : Stmt → List String
  | .global _ names => names
  | .ifElse _ _ body orelse => declaredAll body ++ declaredAll orelse
  | .whileLoop _ _ body orelse => declaredAll body ++ declaredAll orelse
  | .forLoop _ _ _ body orelse => declaredAll body ++ declaredAll orelse
  | .attempt _ body handlers orelse final =>
    declaredAll body ++ declaredHandlers handlers ++ declaredAll orelse ++ declaredAll final
  | .choose _ _ cases => declaredCases cases
  | .guarded _ _ body => declaredAll body
  | _ => []

/-- The names that a block declares global. -/
def declaredAll : List Stmt → List String
  | [] => []
  | s :: ss => s.declared ++ declaredAll ss

def declaredHandlers : List Handler → List String
  | [] => []
  | .mk _ _ body :: hs => declaredAll body ++ declaredHandlers hs

def declaredCases : List Case → List String
  | [] => []
  | .mk _ _ body :: cs => declaredAll body ++ declaredCases cs
end

/-- The names that live in the frame of a function. -/
def localNames (params : List String) (body : List Stmt) : List String :=
  (params ++ boundAll body).filter fun x ↦ !(declaredAll body).contains x

end Coverage.Program

namespace Coverage

/-- A module that can be run. -/
structure Program where
  doc : Option String
  body : List Program.Stmt

end Coverage
