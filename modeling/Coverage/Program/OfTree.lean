import Coverage.Program.Syntax

/-!
# Programs from trees

Each node is read as the part of a program it stands for. What is not in the fragment is read as foreign
code, at the smallest part that is not.
-/

namespace Coverage.Program

open Syntax

def arith? : Node → Option Arith
  | .mk _ (.plain .add) _ _ => some .add
  | .mk _ (.plain .sub) _ _ => some .sub
  | .mk _ (.plain .mult) _ _ => some .mul
  | .mk _ (.plain .floorDiv) _ _ => some .floorDiv
  | .mk _ (.plain .mod) _ _ => some .mod
  | _ => none

def relation? : Node → Option Relation
  | .mk _ (.plain .eq) _ _ => some .eq
  | .mk _ (.plain .notEq) _ _ => some .ne
  | .mk _ (.plain .lt) _ _ => some .lt
  | .mk _ (.plain .ltE) _ _ => some .le
  | .mk _ (.plain .gt) _ _ => some .gt
  | .mk _ (.plain .gtE) _ _ => some .ge
  | .mk _ (.plain .isOp) _ _ => some .same
  | .mk _ (.plain .isNot) _ _ => some .notSame
  | .mk _ (.plain .inOp) _ _ => some .mem
  | .mk _ (.plain .notIn) _ _ => some .notMem
  | _ => none

def unary? : Node → Option Unary
  | .mk _ (.plain .not) _ _ => some .not
  | .mk _ (.plain .uSub) _ _ => some .neg
  | _ => none

def logic? : Node → Option Logic
  | .mk _ (.plain .and) _ _ => some .and
  | .mk _ (.plain .or) _ _ => some .or
  | _ => none

def name? : Node → Option String
  | .mk _ (.plain .name) _ [.text x, _] => some x
  | _ => none

/-- The name of a parameter without an annotation. -/
def param? : Node → Option String
  | .mk _ (.plain .arg) _ [.text x, .none, _] => some x
  | _ => none

/-- The name that an import binds. -/
def boundName? : Node → Option String
  | .mk _ (.plain .aliasName) _ [.text x, .none] => some x
  | .mk _ (.plain .aliasName) _ [_, .text x] => some x
  | _ => none

def text? : Field → Option String
  | .text s => some s
  | _ => none

/-- The expression that a name is. One name always stands for true. -/
def Expr.ofName (x : String) : Expr := if x = "__debug__" then .const (.bool true) else .name x

mutual
def Expr.ofNode : Node → Expr
  | .mk _ (.plain .constant) _ [.constant c, _] =>
    match Literal.ofConstant? c with
    | some c => .const c
    | none => .foreign
  | .mk _ (.plain .name) _ [.text x, _] => .ofName x
  | .mk _ (.plain .binOp) _ [.child l, .child op, .child r] =>
    match arith? op with
    | some op => .arith op (.ofNode l) (.ofNode r)
    | none => .foreign
  | .mk _ (.plain .unaryOp) _ [.child op, .child e] =>
    match unary? op with
    | some op => .unary op (.ofNode e)
    | none => .foreign
  | .mk _ (.plain .compare) _ [.child first, .many ops, .many rest] =>
    match ops.mapM relation? with
    | some relations => .compare (.ofNode first) relations (exprs rest)
    | none => .foreign
  | .mk i .boolOp _ [.child op, .many es] =>
    match logic? op with
    | some op => .logic i op (exprs es)
    | none => .foreign
  | .mk i .ifExp _ [.child test, .child body, .child orelse] =>
    .ifElse i (.ofNode test) (.ofNode body) (.ofNode orelse)
  | .mk _ (.plain .call) _ [.child f, .many args, .many []] => .call (.ofNode f) (exprs args)
  | .mk i .lambda _
      [.child (.mk _ (.plain .arguments) _
        [.many first, .many second, .none, .many [], .many [], .none, .many defaults]),
        .child body] =>
    match (first ++ second).mapM param? with
    | some params => .lambda i params (exprs defaults) (.ofNode body)
    | none => .foreign
  | .mk _ (.plain .list) _ [.many es, _] => .list (exprs es)
  | .mk _ (.plain .tuple) _ [.many es, _] => .tuple (exprs es)
  | .mk _ (.plain .listComp) _
      [.child item, .many [.mk _ (.plain .comprehension) _ [.child target, .child source, .many ifs, .number 0]]] =>
    match name? target with
    | some x => .collect (.ofNode item) x (.ofNode source) (exprs ifs)
    | none => .foreign
  | .mk _ (.plain .subscript) _ [.child e, .child index, _] => .item (.ofNode e) (.ofNode index)
  | .mk _ (.plain .attr) _ [.child e, .text x, _] => .attribute (.ofNode e) x
  | _ => .foreign

def exprs : List Node → List Expr
  | [] => []
  | n :: ns => .ofNode n :: exprs ns
end

/-- The expression in a field that can be empty. -/
def expr? : Field → Option Expr
  | .child n => some (.ofNode n)
  | _ => none

mutual
def Pattern.ofNode : Node → Pattern
  | .mk _ (.plain .matchValue) _ [.child e] => .value (.ofNode e)
  | .mk _ (.plain .matchSingleton) _ [.constant .none] => .singleton .none
  | .mk _ (.plain .matchSingleton) _ [.constant (.bool b)] => .singleton (.bool b)
  | .mk _ (.plain .matchAs) _ [.none, .none] => .any
  | .mk _ (.plain .matchAs) _ [.none, .text x] => .capture .any x
  | .mk _ (.plain .matchAs) _ [.child p, .text x] => .capture (.ofNode p) x
  | .mk _ (.plain .matchOr) _ [.many ps] => .or (patterns ps)
  | _ => .foreign

def patterns : List Node → List Pattern
  | [] => []
  | n :: ns => .ofNode n :: patterns ns
end

mutual
def Stmt.ofNode : Node → Stmt
  | .gap => .foreign 0
  | .mk i (.plain .exprStmt) _ [.child e] => .expr i (.ofNode e)
  | .mk i (.plain .assign) _ [.many targets, .child e, _] =>
    match targets.mapM name? with
    | some xs => .assign i xs (.ofNode e)
    | none => .foreign i
  | .mk i (.plain .augAssign) _ [.child target, .child op, .child e] =>
    match name? target, arith? op with
    | some x, some op => .augment i x op (.ofNode e)
    | _, _ => .foreign i
  | .mk i .ifStmt _ [.child test, .many body, .many orelse] => .ifElse i (.ofNode test) (block body) (block orelse)
  | .mk i .whileLoop _ [.child test, .many body, .many orelse] =>
    .whileLoop i (.ofNode test) (block body) (block orelse)
  | .mk i (.forLoop false) _ [.child target, .child source, .many body, .many orelse, _] =>
    match name? target with
    | some x => .forLoop i x (.ofNode source) (block body) (block orelse)
    | none => .foreign i
  | .mk i (.plain .breakStmt) _ _ => .breakLoop i
  | .mk i (.plain .continueStmt) _ _ => .continueLoop i
  | .mk i (.plain .pass) _ _ => .pass i
  | .mk i (.plain .returnStmt) _ [e] => .giveBack i (expr? e)
  | .mk i (.functionDef false) _
      [.text name,
        .child (.mk _ (.plain .arguments) _
          [.many first, .many second, .none, .many [], .many [], .none, .many defaults]),
        .many body, .many [], .none, _] =>
    match (first ++ second).mapM param? with
    | some params => .define i name params (exprs defaults) (block body)
    | none => .foreign i
  | .mk i (.plain .global) _ [.names xs] => .global i xs
  | .mk i (.plain .raise) _ [e, .none] => .raise i (expr? e)
  | .mk i (.tryStmt false) _ [.many body, .many hs, .many orelse, .many final] =>
    .attempt i (block body) (handlers hs) (block orelse) (block final)
  | .mk i .matchStmt _ [.child subject, .many cs] => .choose i (.ofNode subject) (cases cs)
  | .mk i (.plain .importFrom) _ [.text "__future__", .many names, .number 0] =>
    match names.mapM boundName? with
    | some xs => .future i xs
    | none => .foreign i
  | .mk i (.plain .withStmt) _ [.many [.mk _ (.plain .withItem) _ [.child manager, .none]], .many body, _] =>
    .guarded i (.ofNode manager) (block body)
  | .mk i _ _ _ => .foreign i

def block : List Node → List Stmt
  | [] => []
  | n :: ns => .ofNode n :: block ns

def handlers : List Node → List Handler
  | .mk _ .handler _ [types, name, .many body] :: ns =>
    .mk (expr? types) (text? name) (block body) :: handlers ns
  | _ => []

def cases : List Node → List Case
  | .mk _ .matchCase _ [.child pattern, guard, .many body] :: ns =>
    .mk (.ofNode pattern) (expr? guard) (block body) :: cases ns
  | _ => []
end

/-- The docstring that a block starts with. -/
def docstring? : List Node → Option String
  | .mk _ (.plain .exprStmt) _ [.child (.mk _ (.plain .constant) _ [.constant (.str s), _])] :: _ => some s
  | _ => none

end Coverage.Program

namespace Coverage

open Syntax

def Program.ofTree? : Node → Option Program
  | .mk _ .module _ (.many body :: _) => some { doc := Program.docstring? body, body := Program.block body }
  | _ => none

end Coverage
