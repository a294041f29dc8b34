import Coverage.Program.OfTree
import Coverage.Program.Value

/-!
# Code that keeps to names and nodes

Code fits an allowance if it is in the fragment that can be run, binds and looks at no variable whose name is
not allowed for that and stems from nodes that are allowed. The names of attributes are free.
-/

namespace Coverage.Program

open Syntax (NodeId)

/-- Which variables code may use and which nodes it may stem from. -/
structure Allowed where
  /-- Variables that may be bound. -/
  name : String → Bool
  /-- Variables that may be looked at. -/
  load : String → Bool := name
  node : NodeId → Bool := fun _ ↦ true

def avoiding (x : String) : Allowed where
  name y := y != x

mutual
def Expr.fits (a : Allowed) : Expr → Bool
  | .const _ => true
  | .name x => a.load x
  | .arith _ left right => left.fits a && right.fits a
  | .unary _ e => e.fits a
  | .compare first _ rest => first.fits a && exprsFit a rest
  | .logic i _ operands => a.node i && exprsFit a operands
  | .ifElse i test body orelse => a.node i && test.fits a && body.fits a && orelse.fits a
  | .call f args => f.fits a && exprsFit a args
  | .lambda i params defaults body => a.node i && params.all a.name && exprsFit a defaults && body.fits a
  | .list items => exprsFit a items
  | .tuple items => exprsFit a items
  | .collect item target source conditions =>
    a.name target && item.fits a && source.fits a && exprsFit a conditions
  | .item e index => e.fits a && index.fits a
  | .attribute e _ => e.fits a
  | .foreign => false

def exprsFit (a : Allowed) : List Expr → Bool
  | [] => true
  | e :: es => e.fits a && exprsFit a es
end

def optionFits (a : Allowed) : Option Expr → Bool
  | none => true
  | some e => e.fits a

mutual
def Pattern.fits (a : Allowed) : Pattern → Bool
  | .value e => e.fits a
  | .singleton _ => true
  | .any => true
  | .capture inner x => a.name x && inner.fits a
  | .or alternatives => patternsFit a alternatives
  | .foreign => false

def patternsFit (a : Allowed) : List Pattern → Bool
  | [] => true
  | p :: ps => p.fits a && patternsFit a ps
end

mutual
def Stmt.fits (a : Allowed) : Stmt → Bool
  | .expr i e => a.node i && e.fits a
  | .assign i targets value => a.node i && targets.all a.name && value.fits a
  | .augment i target _ value => a.node i && a.name target && value.fits a
  | .ifElse i test body orelse => a.node i && test.fits a && blockFits a body && blockFits a orelse
  | .whileLoop i test body orelse => a.node i && test.fits a && blockFits a body && blockFits a orelse
  | .forLoop i target source body orelse =>
    a.node i && a.name target && source.fits a && blockFits a body && blockFits a orelse
  | .breakLoop i | .continueLoop i | .pass i => a.node i
  | .giveBack i value => a.node i && optionFits a value
  | .define i name params defaults body =>
    a.node i && a.name name && params.all a.name && exprsFit a defaults && blockFits a body
  | .global i names => a.node i && names.all a.name
  | .raise i exception => a.node i && optionFits a exception
  | .attempt i body handlers orelse final =>
    a.node i && blockFits a body && handlersFit a handlers && blockFits a orelse && blockFits a final
  | .choose i subject cases => a.node i && subject.fits a && casesFit a cases
  | .future i names => a.node i && names.all a.name
  | .guarded i manager body => a.node i && manager.fits a && blockFits a body
  | .foreign _ => false

def blockFits (a : Allowed) : List Stmt → Bool
  | [] => true
  | s :: ss => s.fits a && blockFits a ss

def handlersFit (a : Allowed) : List Handler → Bool
  | [] => true
  | .mk types name body :: hs => optionFits a types && name.all a.name && blockFits a body && handlersFit a hs

def casesFit (a : Allowed) : List Case → Bool
  | [] => true
  | .mk pattern guard body :: cs =>
    pattern.fits a && optionFits a guard && blockFits a body && casesFit a cs
end

def Body.fits (a : Allowed) : Body → Bool
  | .block ss => blockFits a ss
  | .expr e => e.fits a

/-- A function fits if its code does and no scope around it has a variable that is not allowed. -/
def Closure.fits (a : Allowed) (f : Closure) : Bool :=
  a.node f.id && f.locals.all a.name && f.env.all (·.locals.all a.name) && f.body.fits a

end Coverage.Program
