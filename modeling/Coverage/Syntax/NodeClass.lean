/-!
# Classes of syntax nodes

The classes of the Python 3.11 grammar, with the names and fields the grammar gives them. The classes
that have a counting rule of their own come first; every other class is `plain`, and a pass walks over it
field by field.
-/

namespace Coverage.Syntax

/-- What a node of a class is, as far as positions and blocks are concerned. -/
inductive Role where
  | root
  | statement
  | expression
  | pattern
  | handler
  /-- Carries a position that nothing depends on: arguments, keywords and imported names. -/
  | label
  /-- Never carries a position. -/
  | part
  deriving DecidableEq, Repr

/-- Nodes of these roles can carry a position. -/
def Role.placeable : Role → Bool
  | .statement | .expression | .pattern | .handler | .label => true
  | .root | .part => false

/-- Nodes of these roles must carry a position before a pass. -/
def Role.required : Role → Bool
  | .statement | .expression | .pattern | .handler => true
  | .root | .label | .part => false

/-- Classes without a counting rule of their own. -/
inductive Plain where
  | interactive | expression | functionType
  | annAssign | assert | assign | asyncWith | augAssign | breakStmt | continueStmt | delete | exprStmt
  | global | importStmt | importFrom | nonlocal | pass | raise | returnStmt | withStmt
  | attr | await | binOp | call | compare | constant | dict | dictComp | formattedValue
  | generatorExp | joinedStr | list | listComp | name | namedExpr | set | setComp | slice | starred
  | subscript | tuple | unaryOp | yield | yieldFrom
  | matchAs | matchClass | matchMapping | matchOr | matchSequence | matchSingleton | matchStar | matchValue
  | typeIgnore | arguments | arg | keyword | aliasName | withItem | comprehension
  | load | store | del | and | or
  | add | bitAnd | bitOr | bitXor | div | floorDiv | lShift | matMult | mod | mult | pow | rShift | sub
  | invert | not | uAdd | uSub
  | eq | gt | gtE | isOp | isNot | inOp | lt | ltE | notEq | notIn
  deriving DecidableEq, Repr

/-- The class of a node. -/
inductive NodeClass where
  | module
  | classDef
  | functionDef (async : Bool)
  | lambda
  | ifStmt
  | ifExp
  | boolOp
  | matchStmt
  | matchCase
  | whileLoop
  | forLoop (async : Bool)
  | tryStmt (star : Bool)
  | handler
  | plain (c : Plain)
  deriving DecidableEq, Repr

namespace Plain

/-- Name, role and fields of each class, in grammar order. -/
def table : Plain → String × Role × List String
  | interactive => ("Interactive", .root, ["body"])
  | expression => ("Expression", .root, ["body"])
  | functionType => ("FunctionType", .root, ["argtypes", "returns"])
  | annAssign => ("AnnAssign", .statement, ["target", "annotation", "value", "simple"])
  | assert => ("Assert", .statement, ["test", "msg"])
  | assign => ("Assign", .statement, ["targets", "value", "type_comment"])
  | asyncWith => ("AsyncWith", .statement, ["items", "body", "type_comment"])
  | augAssign => ("AugAssign", .statement, ["target", "op", "value"])
  | breakStmt => ("Break", .statement, [])
  | continueStmt => ("Continue", .statement, [])
  | delete => ("Delete", .statement, ["targets"])
  | exprStmt => ("Expr", .statement, ["value"])
  | global => ("Global", .statement, ["names"])
  | importStmt => ("Import", .statement, ["names"])
  | importFrom => ("ImportFrom", .statement, ["module", "names", "level"])
  | nonlocal => ("Nonlocal", .statement, ["names"])
  | pass => ("Pass", .statement, [])
  | raise => ("Raise", .statement, ["exc", "cause"])
  | returnStmt => ("Return", .statement, ["value"])
  | withStmt => ("With", .statement, ["items", "body", "type_comment"])
  | attr => ("Attribute", .expression, ["value", "attr", "ctx"])
  | await => ("Await", .expression, ["value"])
  | binOp => ("BinOp", .expression, ["left", "op", "right"])
  | call => ("Call", .expression, ["func", "args", "keywords"])
  | compare => ("Compare", .expression, ["left", "ops", "comparators"])
  | constant => ("Constant", .expression, ["value", "kind"])
  | dict => ("Dict", .expression, ["keys", "values"])
  | dictComp => ("DictComp", .expression, ["key", "value", "generators"])
  | formattedValue => ("FormattedValue", .expression, ["value", "conversion", "format_spec"])
  | generatorExp => ("GeneratorExp", .expression, ["elt", "generators"])
  | joinedStr => ("JoinedStr", .expression, ["values"])
  | list => ("List", .expression, ["elts", "ctx"])
  | listComp => ("ListComp", .expression, ["elt", "generators"])
  | name => ("Name", .expression, ["id", "ctx"])
  | namedExpr => ("NamedExpr", .expression, ["target", "value"])
  | set => ("Set", .expression, ["elts"])
  | setComp => ("SetComp", .expression, ["elt", "generators"])
  | slice => ("Slice", .expression, ["lower", "upper", "step"])
  | starred => ("Starred", .expression, ["value", "ctx"])
  | subscript => ("Subscript", .expression, ["value", "slice", "ctx"])
  | tuple => ("Tuple", .expression, ["elts", "ctx"])
  | unaryOp => ("UnaryOp", .expression, ["op", "operand"])
  | yield => ("Yield", .expression, ["value"])
  | yieldFrom => ("YieldFrom", .expression, ["value"])
  | matchAs => ("MatchAs", .pattern, ["pattern", "name"])
  | matchClass => ("MatchClass", .pattern, ["cls", "patterns", "kwd_attrs", "kwd_patterns"])
  | matchMapping => ("MatchMapping", .pattern, ["keys", "patterns", "rest"])
  | matchOr => ("MatchOr", .pattern, ["patterns"])
  | matchSequence => ("MatchSequence", .pattern, ["patterns"])
  | matchSingleton => ("MatchSingleton", .pattern, ["value"])
  | matchStar => ("MatchStar", .pattern, ["name"])
  | matchValue => ("MatchValue", .pattern, ["value"])
  | typeIgnore => ("TypeIgnore", .part, ["lineno", "tag"])
  | arguments => ("arguments", .part,
      ["posonlyargs", "args", "vararg", "kwonlyargs", "kw_defaults", "kwarg", "defaults"])
  | arg => ("arg", .label, ["arg", "annotation", "type_comment"])
  | keyword => ("keyword", .label, ["arg", "value"])
  | aliasName => ("alias", .label, ["name", "asname"])
  | withItem => ("withitem", .part, ["context_expr", "optional_vars"])
  | comprehension => ("comprehension", .part, ["target", "iter", "ifs", "is_async"])
  | load => ("Load", .part, [])
  | store => ("Store", .part, [])
  | del => ("Del", .part, [])
  | and => ("And", .part, [])
  | or => ("Or", .part, [])
  | add => ("Add", .part, [])
  | bitAnd => ("BitAnd", .part, [])
  | bitOr => ("BitOr", .part, [])
  | bitXor => ("BitXor", .part, [])
  | div => ("Div", .part, [])
  | floorDiv => ("FloorDiv", .part, [])
  | lShift => ("LShift", .part, [])
  | matMult => ("MatMult", .part, [])
  | mod => ("Mod", .part, [])
  | mult => ("Mult", .part, [])
  | pow => ("Pow", .part, [])
  | rShift => ("RShift", .part, [])
  | sub => ("Sub", .part, [])
  | invert => ("Invert", .part, [])
  | not => ("Not", .part, [])
  | uAdd => ("UAdd", .part, [])
  | uSub => ("USub", .part, [])
  | eq => ("Eq", .part, [])
  | gt => ("Gt", .part, [])
  | gtE => ("GtE", .part, [])
  | isOp => ("Is", .part, [])
  | isNot => ("IsNot", .part, [])
  | inOp => ("In", .part, [])
  | lt => ("Lt", .part, [])
  | ltE => ("LtE", .part, [])
  | notEq => ("NotEq", .part, [])
  | notIn => ("NotIn", .part, [])

def all : List Plain :=
  [interactive, expression, functionType, annAssign, assert, assign, asyncWith, augAssign, breakStmt,
    continueStmt, delete, exprStmt, global, importStmt, importFrom, nonlocal, pass, raise, returnStmt, withStmt,
    attr, await, binOp, call, compare, constant, dict, dictComp, formattedValue, generatorExp,
    joinedStr, list, listComp, name, namedExpr, set, setComp, slice, starred, subscript, tuple, unaryOp,
    yield, yieldFrom, matchAs, matchClass, matchMapping, matchOr, matchSequence, matchSingleton,
    matchStar, matchValue, typeIgnore, arguments, arg, keyword, aliasName, withItem, comprehension, load,
    store, del, and, or, add, bitAnd, bitOr, bitXor, div, floorDiv, lShift, matMult, mod, mult, pow,
    rShift, sub, invert, not, uAdd, uSub, eq, gt, gtE, isOp, isNot, inOp, lt, ltE, notEq, notIn]

end Plain

namespace NodeClass

/-- Name, role and fields of each class, in grammar order. -/
def table : NodeClass → String × Role × List String
  | module => ("Module", .root, ["body", "type_ignores"])
  | classDef => ("ClassDef", .statement, ["name", "bases", "keywords", "body", "decorator_list"])
  | functionDef async =>
    (if async then "AsyncFunctionDef" else "FunctionDef", .statement,
      ["name", "args", "body", "decorator_list", "returns", "type_comment"])
  | lambda => ("Lambda", .expression, ["args", "body"])
  | ifStmt => ("If", .statement, ["test", "body", "orelse"])
  | ifExp => ("IfExp", .expression, ["test", "body", "orelse"])
  | boolOp => ("BoolOp", .expression, ["op", "values"])
  | matchStmt => ("Match", .statement, ["subject", "cases"])
  | matchCase => ("match_case", .part, ["pattern", "guard", "body"])
  | whileLoop => ("While", .statement, ["test", "body", "orelse"])
  | forLoop async =>
    (if async then "AsyncFor" else "For", .statement, ["target", "iter", "body", "orelse", "type_comment"])
  | tryStmt star => (if star then "TryStar" else "Try", .statement, ["body", "handlers", "orelse", "finalbody"])
  | handler => ("ExceptHandler", .handler, ["type", "name", "body"])
  | plain c => c.table

def name (c : NodeClass) : String := c.table.1

def role (c : NodeClass) : Role := c.table.2.1

/-- The names of the fields, in the order in which a walk meets them. -/
def fieldNames (c : NodeClass) : List String := c.table.2.2

def all : List NodeClass :=
  [module, classDef, functionDef false, functionDef true, lambda, ifStmt, ifExp, boolOp, matchStmt,
    matchCase, whileLoop, forLoop false, forLoop true, tryStmt false, tryStmt true, handler] ++
    Plain.all.map plain

/-- The class that the grammar calls `name`. -/
def ofName? (name : String) : Option NodeClass := all.find? (·.name == name)

def isStatement (c : NodeClass) : Bool := c.role == .statement

end NodeClass

end Coverage.Syntax
