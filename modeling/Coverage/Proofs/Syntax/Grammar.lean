import Coverage.Pass.Visit

/-!
# The grammar of syntax trees

What the grammar says about the fields of each class: which of them hold nodes, of which category, and how
many. A tree is of a category if its class is and its fields, and all the fields below, are as the grammar
has them. Some lists must not be empty in source text, although a tree can be made in which they are; a tree
is *full* if no such list is empty.
-/

namespace Coverage.Syntax

variable {c : NodeClass} {n : Node} {ns : List Node}

/-- What the grammar takes the nodes of a class for. -/
inductive Category where
  | root | statement | expression | pattern | handler | case
  | arguments | arg | keyword | imported | withItem | comprehension | typeIgnore
  /-- Operators and contexts, which have no fields. -/
  | symbol
  deriving DecidableEq, Repr

/-- What the grammar puts into a field. -/
inductive Content where
  /-- A name. -/
  | text
  /-- No nodes: a number, a constant, names, or a text that can be missing. -/
  | atom
  | one (cat : Category)
  | optional (cat : Category)
  /-- Nodes, of which there may have to be one. -/
  | list (cat : Category) (nonempty : Bool)
  /-- Nodes, each of which can be missing. -/
  | gaps (cat : Category)
  deriving DecidableEq, Repr

/-- The category of the nodes in a field. -/
def Content.category? : Content → Option Category
  | text | atom => none
  | one cat | optional cat | list cat _ | gaps cat => some cat

namespace Content

abbrev expr : Content := .one .expression
abbrev exprs : Content := .list .expression false
abbrev block : Content := .list .statement true
abbrev clause : Content := .list .statement false
abbrev op : Content := .one .symbol

end Content

def Plain.grammar : Plain → Category × List Content
  | interactive => (.root, [.clause])
  | expression => (.root, [.expr])
  | functionType => (.root, [.exprs, .expr])
  | annAssign => (.statement, [.expr, .expr, .optional .expression, .atom])
  | assert => (.statement, [.expr, .optional .expression])
  | assign => (.statement, [.exprs, .expr, .atom])
  | asyncWith | withStmt => (.statement, [.list .withItem false, .block, .atom])
  | augAssign => (.statement, [.expr, .op, .expr])
  | breakStmt | continueStmt | pass => (.statement, [])
  | delete => (.statement, [.exprs])
  | exprStmt => (.statement, [.expr])
  | global | nonlocal => (.statement, [.atom])
  | importStmt => (.statement, [.list .imported false])
  | importFrom => (.statement, [.atom, .list .imported false, .atom])
  | raise => (.statement, [.optional .expression, .optional .expression])
  | returnStmt => (.statement, [.optional .expression])
  | attr => (.expression, [.expr, .atom, .op])
  | await | yieldFrom => (.expression, [.expr])
  | binOp => (.expression, [.expr, .op, .expr])
  | call => (.expression, [.expr, .exprs, .list .keyword false])
  | compare => (.expression, [.expr, .list .symbol false, .exprs])
  | constant => (.expression, [.atom, .atom])
  | dict => (.expression, [.gaps .expression, .exprs])
  | dictComp => (.expression, [.expr, .expr, .list .comprehension false])
  | formattedValue => (.expression, [.expr, .atom, .optional .expression])
  | generatorExp | listComp | setComp => (.expression, [.expr, .list .comprehension false])
  | joinedStr | set => (.expression, [.exprs])
  | list | tuple => (.expression, [.exprs, .op])
  | name => (.expression, [.atom, .op])
  | namedExpr => (.expression, [.expr, .expr])
  | slice => (.expression, [.optional .expression, .optional .expression, .optional .expression])
  | starred => (.expression, [.expr, .op])
  | subscript => (.expression, [.expr, .expr, .op])
  | unaryOp => (.expression, [.op, .expr])
  | yield => (.expression, [.optional .expression])
  | matchAs => (.pattern, [.optional .pattern, .atom])
  | matchClass => (.pattern, [.expr, .list .pattern false, .atom, .list .pattern false])
  | matchMapping => (.pattern, [.exprs, .list .pattern false, .atom])
  | matchOr | matchSequence => (.pattern, [.list .pattern false])
  | matchSingleton | matchStar => (.pattern, [.atom])
  | matchValue => (.pattern, [.expr])
  | typeIgnore => (.typeIgnore, [.atom, .atom])
  | arguments =>
    (.arguments, [.list .arg false, .list .arg false, .optional .arg, .list .arg false, .gaps .expression,
      .optional .arg, .exprs])
  | arg => (.arg, [.atom, .optional .expression, .atom])
  | keyword => (.keyword, [.atom, .expr])
  | aliasName => (.imported, [.atom, .atom])
  | withItem => (.withItem, [.expr, .optional .expression])
  | comprehension => (.comprehension, [.expr, .expr, .exprs, .atom])
  | load | store | del | and | or | add | bitAnd | bitOr | bitXor | div | floorDiv | lShift | matMult | mod
  | mult | pow | rShift | sub | invert | not | uAdd | uSub | eq | gt | gtE | isOp | isNot | inOp | lt | ltE
  | notEq | notIn => (.symbol, [])

def NodeClass.grammar : NodeClass → Category × List Content
  | module => (.root, [.clause, .list .typeIgnore false])
  | classDef => (.statement, [.atom, .exprs, .list .keyword false, .block, .exprs])
  | functionDef _ =>
    (.statement, [.text, .one .arguments, .block, .exprs, .optional .expression, .atom])
  | lambda => (.expression, [.one .arguments, .expr])
  | ifStmt | whileLoop => (.statement, [.expr, .block, .clause])
  | ifExp => (.expression, [.expr, .expr, .expr])
  | boolOp => (.expression, [.op, .list .expression true])
  | matchStmt => (.statement, [.expr, .list .case true])
  | matchCase => (.case, [.one .pattern, .optional .expression, .block])
  | forLoop _ => (.statement, [.expr, .expr, .block, .clause, .atom])
  | tryStmt _ => (.statement, [.block, .list .handler false, .clause, .clause])
  | handler => (.handler, [.optional .expression, .atom, .block])
  | plain c => c.grammar

def NodeClass.category (c : NodeClass) : Category := c.grammar.1

/-- What the fields hold, in grammar order. -/
def NodeClass.contents (c : NodeClass) : List Content := c.grammar.2

mutual
/-- Whether a tree is of a category, `full` or not. -/
def Node.isA (full : Bool) (cat : Category) : Node → Bool
  | .gap => false
  | .mk _ c _ fs => c.category == cat && fieldsFit full c.contents fs

def fieldsFit (full : Bool) : List Content → List Field → Bool
  | [], [] => true
  | content :: contents, f :: fs => f.fits full content && fieldsFit full contents fs
  | _, _ => false

def Field.fits (full : Bool) (content : Content) : Field → Bool
  | .none =>
    match content with
    | .atom | .optional _ => true
    | _ => false
  | .text _ => content == .text || content == .atom
  | .number _ | .constant _ | .names _ => content == .atom
  | .child n =>
    match content with
    | .one cat | .optional cat => n.isA full cat
    | _ => false
  | .many ns =>
    match content with
    | .atom => ns.isEmpty
    | .list cat nonempty => !(full && nonempty && ns.isEmpty) && nodesAre full false cat ns
    | .gaps cat => nodesAre full true cat ns
    | _ => false

/-- Whether trees are all of a category, or gaps if there can be gaps. -/
def nodesAre (full gaps : Bool) (cat : Category) : List Node → Bool
  | [] => true
  | n :: ns => (n.isA full cat || (gaps && n.cls?.isNone)) && nodesAre full gaps cat ns
end

/-! ## What fits -/

section Fits

variable {full : Bool} {cat : Category} {f : Field} {contents : List Content} {fs : List Field}

attribute [local simp] Node.isA fieldsFit Field.fits nodesAre

theorem isA_mk {i : NodeId} {p : Place} :
    (Node.mk i c p fs).isA full cat = true ↔ c.category = cat ∧ fieldsFit full c.contents fs = true := by
  rw [Node.isA, Bool.and_eq_true, beq_iff_eq]

theorem fieldsFit_nil : fieldsFit full [] fs = true ↔ fs = [] := by
  cases fs <;> simp

theorem fieldsFit_cons {content : Content} :
    fieldsFit full (content :: contents) fs = true ↔
      ∃ f rest, fs = f :: rest ∧ f.fits full content = true ∧ fieldsFit full contents rest = true := by
  cases fs with
  | nil => simp
  | cons f rest =>
    rw [fieldsFit, Bool.and_eq_true]
    constructor
    · intro h
      exact ⟨f, rest, rfl, h⟩
    · intro h
      obtain ⟨_, _, heq, h⟩ := h
      cases heq
      exact h

theorem fits_text : f.fits full .text = true ↔ ∃ s, f = .text s := by
  cases f <;> simp

theorem fits_one : f.fits full (.one cat) = true ↔ ∃ n, f = .child n ∧ n.isA full cat = true := by
  cases f <;> simp

theorem fits_optional :
    f.fits full (.optional cat) = true ↔ f = .none ∨ ∃ n, f = .child n ∧ n.isA full cat = true := by
  cases f <;> simp

theorem fits_list {nonempty : Bool} :
    f.fits full (.list cat nonempty) = true ↔
      ∃ ns, f = .many ns ∧ (full = true → nonempty = true → ns ≠ []) ∧ nodesAre full false cat ns = true := by
  cases f <;> simp
  cases full <;> cases nonempty <;> simp

theorem fits_gaps : f.fits full (.gaps cat) = true ↔ ∃ ns, f = .many ns ∧ nodesAre full true cat ns = true := by
  cases f <;> simp

theorem nodesAre_cons {gaps : Bool} : nodesAre full gaps cat (n :: ns) = true ↔
      (n.isA full cat = true ∨ gaps = true ∧ n = .gap) ∧ nodesAre full gaps cat ns = true := by
  cases n <;> simp [Node.cls?]

end Fits

/-! ## Shapes -/

/-- The fields of a node, class by class. -/
inductive Shape (full : Bool) : NodeClass → List Field → Prop
  | module {body ignores : List Node} (hbody : nodesAre full false .statement body = true)
      (hignores : nodesAre full false .typeIgnore ignores = true) :
      Shape full .module [.many body, .many ignores]
  | classDef {name : Field} {bases keywords body decorators : List Node} (hname : name.fits full .atom = true)
      (hbases : nodesAre full false .expression bases = true)
      (hkeywords : nodesAre full false .keyword keywords = true) (hsome : full = true → body ≠ [])
      (hbody : nodesAre full false .statement body = true)
      (hdecorators : nodesAre full false .expression decorators = true) :
      Shape full .classDef [name, .many bases, .many keywords, .many body, .many decorators]
  | functionDef {async : Bool} {name : String} {args : Node} {body decorators : List Node} {returns comment : Field}
      (hargs : args.isA full .arguments = true) (hsome : full = true → body ≠ [])
      (hbody : nodesAre full false .statement body = true)
      (hdecorators : nodesAre full false .expression decorators = true)
      (hreturns : returns.fits full (.optional .expression) = true) (hcomment : comment.fits full .atom = true) :
      Shape full (.functionDef async) [.text name, .child args, .many body, .many decorators, returns, comment]
  | lambda {args body : Node} (hargs : args.isA full .arguments = true) (hbody : body.isA full .expression = true) :
      Shape full .lambda [.child args, .child body]
  | ifStmt {test : Node} {body orelse : List Node} (htest : test.isA full .expression = true)
      (hsome : full = true → body ≠ []) (hbody : nodesAre full false .statement body = true)
      (horelse : nodesAre full false .statement orelse = true) :
      Shape full .ifStmt [.child test, .many body, .many orelse]
  | ifExp {test body orelse : Node} (htest : test.isA full .expression = true)
      (hbody : body.isA full .expression = true) (horelse : orelse.isA full .expression = true) :
      Shape full .ifExp [.child test, .child body, .child orelse]
  | boolOp {op : Node} {values : List Node} (hop : op.isA full .symbol = true) (hsome : full = true → values ≠ [])
      (hvalues : nodesAre full false .expression values = true) : Shape full .boolOp [.child op, .many values]
  | matchStmt {subject : Node} {cases : List Node} (hsubject : subject.isA full .expression = true)
      (hsome : full = true → cases ≠ []) (hcases : nodesAre full false .case cases = true) :
      Shape full .matchStmt [.child subject, .many cases]
  | matchCase {pattern : Node} {guard : Field} {body : List Node} (hpattern : pattern.isA full .pattern = true)
      (hguard : guard.fits full (.optional .expression) = true) (hsome : full = true → body ≠ [])
      (hbody : nodesAre full false .statement body = true) : Shape full .matchCase [.child pattern, guard, .many body]
  | whileLoop {test : Node} {body orelse : List Node} (htest : test.isA full .expression = true)
      (hsome : full = true → body ≠ []) (hbody : nodesAre full false .statement body = true)
      (horelse : nodesAre full false .statement orelse = true) :
      Shape full .whileLoop [.child test, .many body, .many orelse]
  | forLoop {async : Bool} {target iter : Node} {body orelse : List Node} {comment : Field}
      (htarget : target.isA full .expression = true) (hiter : iter.isA full .expression = true)
      (hsome : full = true → body ≠ []) (hbody : nodesAre full false .statement body = true)
      (horelse : nodesAre full false .statement orelse = true) (hcomment : comment.fits full .atom = true) :
      Shape full (.forLoop async) [.child target, .child iter, .many body, .many orelse, comment]
  | tryStmt {star : Bool} {body handlers orelse finalbody : List Node} (hsome : full = true → body ≠ [])
      (hbody : nodesAre full false .statement body = true) (hhandlers : nodesAre full false .handler handlers = true)
      (horelse : nodesAre full false .statement orelse = true)
      (hfinalbody : nodesAre full false .statement finalbody = true) :
      Shape full (.tryStmt star) [.many body, .many handlers, .many orelse, .many finalbody]
  | handler {type name : Field} {body : List Node} (htype : type.fits full (.optional .expression) = true)
      (hname : name.fits full .atom = true) (hsome : full = true → body ≠ [])
      (hbody : nodesAre full false .statement body = true) : Shape full .handler [type, name, .many body]
  | plain {c : Plain} {fs : List Field} (hfs : fieldsFit full c.grammar.2 fs = true) : Shape full (.plain c) fs

/-- The fields of a node by its class. -/
theorem shape_of_fits {full : Bool} {fs : List Field} (h : fieldsFit full c.contents fs = true) :
    Shape full c fs := by
  cases c with
  | plain c => exact .plain h
  | module =>
    simp only [NodeClass.contents, NodeClass.grammar, fieldsFit_cons, fieldsFit_nil, fits_list] at h
    obtain ⟨_, _, rfl, ⟨body, rfl, -, hbody⟩, _, _, rfl, ⟨ignores, rfl, -, hignores⟩, rfl⟩ := h
    exact .module hbody hignores
  | classDef =>
    simp only [NodeClass.contents, NodeClass.grammar, fieldsFit_cons, fieldsFit_nil, fits_list] at h
    obtain ⟨name, _, rfl, hname, _, _, rfl, ⟨bases, rfl, -, hbases⟩, _, _, rfl, ⟨keywords, rfl, -, hkeywords⟩,
      _, _, rfl, ⟨body, rfl, hsome, hbody⟩, _, _, rfl, ⟨decorators, rfl, -, hdecorators⟩, rfl⟩ := h
    exact .classDef hname hbases hkeywords (fun hfull ↦ hsome hfull trivial) hbody hdecorators
  | functionDef async =>
    simp only [NodeClass.contents, NodeClass.grammar, fieldsFit_cons, fieldsFit_nil, fits_list, fits_text,
      fits_one] at h
    obtain ⟨_, _, rfl, ⟨name, rfl⟩, _, _, rfl, ⟨args, rfl, hargs⟩, _, _, rfl, ⟨body, rfl, hsome, hbody⟩,
      _, _, rfl, ⟨decorators, rfl, -, hdecorators⟩, returns, _, rfl, hreturns, comment, _, rfl, hcomment, rfl⟩ := h
    exact .functionDef hargs (fun hfull ↦ hsome hfull trivial) hbody hdecorators hreturns hcomment
  | lambda =>
    simp only [NodeClass.contents, NodeClass.grammar, fieldsFit_cons, fieldsFit_nil, fits_one] at h
    obtain ⟨_, _, rfl, ⟨args, rfl, hargs⟩, _, _, rfl, ⟨body, rfl, hbody⟩, rfl⟩ := h
    exact .lambda hargs hbody
  | ifStmt =>
    simp only [NodeClass.contents, NodeClass.grammar, fieldsFit_cons, fieldsFit_nil, fits_list, fits_one] at h
    obtain ⟨_, _, rfl, ⟨test, rfl, htest⟩, _, _, rfl, ⟨body, rfl, hsome, hbody⟩,
      _, _, rfl, ⟨orelse, rfl, -, horelse⟩, rfl⟩ := h
    exact .ifStmt htest (fun hfull ↦ hsome hfull trivial) hbody horelse
  | ifExp =>
    simp only [NodeClass.contents, NodeClass.grammar, fieldsFit_cons, fieldsFit_nil, fits_one] at h
    obtain ⟨_, _, rfl, ⟨test, rfl, htest⟩, _, _, rfl, ⟨body, rfl, hbody⟩, _, _, rfl, ⟨orelse, rfl, horelse⟩, rfl⟩ := h
    exact .ifExp htest hbody horelse
  | boolOp =>
    simp only [NodeClass.contents, NodeClass.grammar, fieldsFit_cons, fieldsFit_nil, fits_list, fits_one] at h
    obtain ⟨_, _, rfl, ⟨op, rfl, hop⟩, _, _, rfl, ⟨values, rfl, hsome, hvalues⟩, rfl⟩ := h
    exact .boolOp hop (fun hfull ↦ hsome hfull trivial) hvalues
  | matchStmt =>
    simp only [NodeClass.contents, NodeClass.grammar, fieldsFit_cons, fieldsFit_nil, fits_list, fits_one] at h
    obtain ⟨_, _, rfl, ⟨subject, rfl, hsubject⟩, _, _, rfl, ⟨cases, rfl, hsome, hcases⟩, rfl⟩ := h
    exact .matchStmt hsubject (fun hfull ↦ hsome hfull trivial) hcases
  | matchCase =>
    simp only [NodeClass.contents, NodeClass.grammar, fieldsFit_cons, fieldsFit_nil, fits_list, fits_one] at h
    obtain ⟨_, _, rfl, ⟨pattern, rfl, hpattern⟩, guard, _, rfl, hguard, _, _, rfl, ⟨body, rfl, hsome, hbody⟩, rfl⟩ := h
    exact .matchCase hpattern hguard (fun hfull ↦ hsome hfull trivial) hbody
  | whileLoop =>
    simp only [NodeClass.contents, NodeClass.grammar, fieldsFit_cons, fieldsFit_nil, fits_list, fits_one] at h
    obtain ⟨_, _, rfl, ⟨test, rfl, htest⟩, _, _, rfl, ⟨body, rfl, hsome, hbody⟩,
      _, _, rfl, ⟨orelse, rfl, -, horelse⟩, rfl⟩ := h
    exact .whileLoop htest (fun hfull ↦ hsome hfull trivial) hbody horelse
  | forLoop async =>
    simp only [NodeClass.contents, NodeClass.grammar, fieldsFit_cons, fieldsFit_nil, fits_list, fits_one] at h
    obtain ⟨_, _, rfl, ⟨target, rfl, htarget⟩, _, _, rfl, ⟨iter, rfl, hiter⟩, _, _, rfl, ⟨body, rfl, hsome, hbody⟩,
      _, _, rfl, ⟨orelse, rfl, -, horelse⟩, comment, _, rfl, hcomment, rfl⟩ := h
    exact .forLoop htarget hiter (fun hfull ↦ hsome hfull trivial) hbody horelse hcomment
  | tryStmt star =>
    simp only [NodeClass.contents, NodeClass.grammar, fieldsFit_cons, fieldsFit_nil, fits_list] at h
    obtain ⟨_, _, rfl, ⟨body, rfl, hsome, hbody⟩, _, _, rfl, ⟨handlers, rfl, -, hhandlers⟩,
      _, _, rfl, ⟨orelse, rfl, -, horelse⟩, _, _, rfl, ⟨finalbody, rfl, -, hfinalbody⟩, rfl⟩ := h
    exact .tryStmt (fun hfull ↦ hsome hfull trivial) hbody hhandlers horelse hfinalbody
  | handler =>
    simp only [NodeClass.contents, NodeClass.grammar, fieldsFit_cons, fieldsFit_nil, fits_list] at h
    obtain ⟨type, _, rfl, htype, name, _, rfl, hname, _, _, rfl, ⟨body, rfl, hsome, hbody⟩, rfl⟩ := h
    exact .handler htype hname (fun hfull ↦ hsome hfull trivial) hbody

/-- Some categories have one class. -/
theorem class_of_category : (c.category = .case → c = .matchCase) ∧ (c.category = .handler → c = .handler) := by
  cases c with
  | plain c => cases c <;> decide
  | _ => simp [NodeClass.category, NodeClass.grammar]

theorem leaf_of_category (h : c.category = .imported ∨ c.category = .typeIgnore) :
    (c = .plain .aliasName ∨ c = .plain .typeIgnore) ∧ ∀ content ∈ c.contents, content = .atom := by
  cases c with
  | plain c =>
    cases c
    case aliasName | typeIgnore => simp [NodeClass.contents, NodeClass.grammar, Plain.grammar]
    all_goals simp [NodeClass.category, NodeClass.grammar, Plain.grammar] at h
  | _ => simp [NodeClass.category, NodeClass.grammar] at h

theorem symbol_of_category (h : c.category = .symbol) : ∃ op, c = .plain op ∧ c.contents = [] := by
  cases c with
  | plain c => cases c <;> first | exact ⟨_, rfl, rfl⟩ | cases h
  | _ => cases h

/-! ## Statements -/

theorem category_eq_statement : c.category = .statement ↔ c.isStatement = true := by
  cases c with
  | plain c => cases c <;> decide
  | _ => simp [NodeClass.category, NodeClass.grammar, NodeClass.isStatement, NodeClass.role, NodeClass.table]

theorem isStatement_of_isA {full : Bool} (h : n.isA full .statement = true) : n.isStatement = true := by
  cases n with
  | gap => simp [Node.isA] at h
  | mk i c p fs => exact category_eq_statement.1 (isA_mk.1 h).1

theorem not_isStatement_of_isA {full : Bool} {cat : Category} (h : n.isA full cat = true)
    (hcat : cat ≠ .statement) : n.isStatement = false := by
  cases n with
  | gap => rfl
  | mk i c p fs =>
    have hc : c.category ≠ .statement := (isA_mk.1 h).1 ▸ hcat
    have hnot : c.isStatement ≠ true := fun hs ↦ hc (category_eq_statement.2 hs)
    exact Bool.eq_false_iff.2 hnot

/-! ## What a walk meets -/

/-- Categories of nodes that a walk from a module goes into node by node: the others are the root, patterns,
which are left alone, and handlers and cases, which belong to a statement. -/
def Category.walked : Category → Bool
  | .root | .pattern | .handler | .case => false
  | _ => true

/-- Those of them that are not statements. -/
def Category.inner (cat : Category) : Bool := cat.walked && cat != .statement

theorem Category.inner_iff {cat : Category} :
    cat.inner = true ↔ cat.walked = true ∧ cat ≠ .statement ∧ cat ≠ .pattern := by
  cases cat <;> decide

/-- Fields that hold nodes to walk into; statements stand in lists only. -/
def Content.walked : Content → Bool
  | .text | .atom => true
  | .one cat | .optional cat | .gaps cat => cat.inner
  | .list cat _ => cat.walked

def Content.listsStatements : Content → Bool
  | .one cat | .optional cat | .gaps cat => cat != .statement
  | _ => true

theorem listsStatements_contents (c : NodeClass) : ∀ content ∈ c.contents, content.listsStatements = true := by
  cases c with
  | plain c => cases c <;> decide
  | functionDef async | forLoop async | tryStmt star =>
    simp [NodeClass.contents, NodeClass.grammar, Content.listsStatements]
  | _ => decide

/-- Apart from patterns, nodes without a rule hold nodes to walk into. -/
theorem walked_contents {c : Plain} (h : (NodeClass.plain c).category ≠ .pattern) :
    ∀ content ∈ c.grammar.2, content.walked = true := by
  cases c
  case matchAs | matchClass | matchMapping | matchOr | matchSequence | matchSingleton | matchStar | matchValue =>
    exact absurd rfl h
  all_goals decide

/-- Statements of the grammar form a block. -/
theorem startsBlock_of_statements {full : Bool} (h : nodesAre full false .statement ns = true)
    (hne : ns ≠ []) : Pass.startsBlock ns = true := by
  cases ns with
  | nil => exact absurd rfl hne
  | cons n ns =>
    have hn : n.isA full .statement = true := by simpa using (nodesAre_cons.1 h).1
    exact isStatement_of_isA hn

theorem not_startsBlock_of_are {full gaps : Bool} {cat : Category}
    (h : nodesAre full gaps cat ns = true) (hcat : cat ≠ .statement) : Pass.startsBlock ns = false := by
  cases ns with
  | nil => rfl
  | cons n ns =>
    rcases (nodesAre_cons.1 h).1 with hn | ⟨-, rfl⟩
    · exact not_isStatement_of_isA hn hcat
    · rfl

theorem isA_of_fits_child {full : Bool} {content : Content} (h : (Field.child n).fits full content = true)
    (hlists : content.listsStatements = true) : ∃ cat, cat ≠ .statement ∧ n.isA full cat = true := by
  cases content with
  | one cat | optional cat =>
    have hcat : cat ≠ .statement := by simpa [Content.listsStatements] using hlists
    exact ⟨cat, hcat, by simpa [Field.fits] using h⟩
  | _ => simp [Field.fits] at h

/-- A list of nodes is a block of statements, or it holds no statement. -/
theorem nodesAre_of_fits_many {full : Bool} {content : Content}
    (h : (Field.many ns).fits full content = true) (hlists : content.listsStatements = true) :
    (Pass.startsBlock ns = true ∧ nodesAre full false .statement ns = true) ∨
      (Pass.startsBlock ns = false ∧ ∃ gaps cat, cat ≠ .statement ∧ nodesAre full gaps cat ns = true) := by
  have hother : ∀ {gaps cat}, nodesAre full gaps cat ns = true → cat ≠ .statement →
      Pass.startsBlock ns = false ∧ ∃ gaps cat, cat ≠ .statement ∧ nodesAre full gaps cat ns = true :=
    fun hns hcat ↦ ⟨not_startsBlock_of_are hns hcat, _, _, hcat, hns⟩
  have hnil : ns = [] → Pass.startsBlock ns = false ∧
      ∃ gaps cat, cat ≠ .statement ∧ nodesAre full gaps cat ns = true := by
    rintro rfl
    exact ⟨rfl, false, .expression, by decide, rfl⟩
  cases content with
  | atom => exact .inr (hnil (by simpa [Field.fits] using h))
  | list cat nonempty =>
    obtain ⟨_, heq, -, hns⟩ := fits_list.1 h
    cases heq
    by_cases hcat : cat = .statement
    · subst hcat
      by_cases hempty : ns = []
      · exact .inr (hnil hempty)
      · exact .inl ⟨startsBlock_of_statements hns hempty, hns⟩
    · exact .inr (hother hns hcat)
  | gaps cat =>
    obtain ⟨_, heq, hns⟩ := fits_gaps.1 h
    cases heq
    exact .inr (hother hns (by simpa [Content.listsStatements] using hlists))
  | _ => simp [Field.fits] at h

end Coverage.Syntax
