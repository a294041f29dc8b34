import Coverage.Pass.Check
import Coverage.Pass.State

/-!
# The walk of a pass

A pass walks a tree in source order. It registers a unit before it walks into it, and adds the counters of
a block when the block is finished. When it is stopped, the nodes it has walked through keep what was
already put into them: a block that is not finished keeps its statements without their counters.
-/

namespace Coverage.Pass

open Syntax

/-- A statement of a block and the counter that goes before it. -/
structure Slot where
  counter : Option Node
  stmt : Node

/-- The statements of a finished block. -/
def finished (slots : List Slot) : List Node := slots.flatMap fun s ↦ s.counter.toList ++ [s.stmt]

/-- The statements without their counters. -/
def bare (slots : List Slot) : List Node := slots.map (·.stmt)

/-! ## Arms -/

/-- Whether a node is an `if` with a test and two blocks. -/
def isLink : Node → Bool
  | .mk _ .ifStmt _ [.child _, .many _, .many _] => true
  | _ => false

/-- An `if` continues the chain it is the `else` of, unless it is marked or excluded. -/
def continues (plan : Plan) (marks : Marks) (n : Node) : Bool :=
  isLink n && !marks.holds n && !plan.excludes n

/-- The arms of an `if` chain: the bodies in order, then the last `else`, or the last test if there is
none. -/
def chainArms (plan : Plan) (marks : Marks) : Node → Except Unlocated (List Span)
  | .mk _ .ifStmt _ [.child test, .many body, .many []] => do return [← locateAll body, ← locate test]
  | .mk _ .ifStmt _ [.child _, .many body, .many [n]] =>
    if continues plan marks n then do
      let span ← locateAll body
      return span :: (← chainArms plan marks n)
    else do return [← locateAll body, ← locateAll [n]]
  | .mk _ .ifStmt _ [.child _, .many body, .many orelse] => do return [← locateAll body, ← locateAll orelse]
  | _ => return []

def caseArm : Node → Except Unlocated Span
  | .mk _ .matchCase _ [.child pattern, _, .many body] => do return (← locate pattern).join (← locateAll body)
  | _ => .error .gap

/-- The arms of a `match`: the cases, and the subject if the cases can all fail. -/
def matchArms (subject : Node) (cases : List Node) (hasDefault : Bool) : Except Unlocated (List Span) := do
  let arms ← cases.mapM caseArm
  if hasDefault then return arms
  return arms ++ [← locate subject]

/-- The arms of a loop: its body, then its `else`, or the header if there is none. -/
def loopArms (header : Node) (body orelse : List Node) : Except Unlocated (List Span) := do
  let exit ← if orelse.isEmpty then locate header else locateAll orelse
  return [← locateAll body, exit]

/-- The arms of a `try`: its body, then what handles an exception. -/
def tryArms (body handlers finalbody : List Node) : Except Unlocated (List Span) := do
  let error ←
    if !handlers.isEmpty then locateAll handlers
    else if !finalbody.isEmpty then locateAll finalbody
    else locateAll body
  return [← locateAll body, error]

/-! ## Counters -/

/-- A finished `else` clause. Where there is none in the source, a lone counter stands for it if there is a
key. -/
def elseClause (plan : Plan) (key : Option Key) (header : Place) (slots : List Slot) : StateM State (List Node) :=
  match slots, key with
  | [], none => return []
  | [], some key => return [← counter plan key header]
  | slots, key => prepend plan key (finished slots)

/-- Puts the counter of a function behind the docstring of its body. -/
def countEntry (plan : Plan) (key : Option Key) (hasDocstring : Bool) (block : List Node) :
    StateM State (List Node) :=
  match key, block, hasDocstring with
  | some key, doc :: first :: rest, true => return doc :: (← counter plan key first.place) :: first :: rest
  | some key, [doc], true => return [doc, ← counter plan key doc.place]
  | some key, first :: rest, false => return (← counter plan key first.place) :: first :: rest
  | _, _, _ => return block

/-- Guards the body of a `try` if both its arms have a key. -/
def guardBody (plan : Plan) (keys : List (Option Key)) (body : List Node) : StateM State (List Node) :=
  match keys, body with
  | [some ok, some error], first :: _ =>
    return [← inject Probe.guardSize (Probe.guard plan ok error first.place body)]
  | _, _ => return body

def addFallback (plan : Plan) (key : Option Key) (subject : Node) (cases : List Node) :
    StateM State (List Node) :=
  match key with
  | some key => return cases ++ [← inject Probe.fallbackSize (Probe.fallback plan key subject.place)]
  | none => return cases

def startsBlock : List Node → Bool
  | [] => false
  | n :: _ => n.isStatement

/-- The key of the arm at a position. -/
def keyAt (keys : List (Option Key)) (i : Nat) : Option Key := (keys[i]?).join

/-! ## The walk -/

mutual
/-- Walks into a node unless it is marked. -/
def visit (plan : Plan) : Node → Visit Node Node
  | .gap => return .gap
  | .mk i c p fs => do
    if ← isMarked (.mk i c p fs) then return .mk i c p fs
    match c, fs with
    | .module, [.many body, ignores] =>
      let slots ← within (fun b ↦ .mk i .module p [.many b, ignores]) (visitBlock plan true body)
      mark i
      return .mk i .module p [.many (finished slots), ignores]
    | .classDef, [name, .many bases, .many keywords, .many body, .many decorators] =>
      let node (ds bs ks b : List Node) : Node := .mk i .classDef p [name, .many bs, .many ks, .many b, .many ds]
      let ds ← within (fun ds ↦ node ds bases keywords body) (visitAll plan decorators)
      let bs ← within (fun bs ↦ node ds bs keywords body) (visitAll plan bases)
      let ks ← within (fun ks ↦ node ds bs ks body) (visitAll plan keywords)
      let slots ← within (fun b ↦ node ds bs ks b) (visitBlock plan true body)
      return node ds bs ks (finished slots)
    | .functionDef async, [.text name, .child args, .many body, .many decorators, returns, comment] =>
      let node (ds : List Node) (a : Node) (b : List Node) : Node :=
        .mk i (.functionDef async) p [.text name, .child a, .many b, .many ds, returns, comment]
      let key ← leaving (node decorators args body)
        (registerUnit plan .function (node decorators args body) (some name))
      let ds ← within (fun ds ↦ node ds args body) (visitAll plan decorators)
      let a ← within (fun a ↦ node ds a body) (visit plan args)
      let hasDocstring ← leaving (node ds a body) (firstIsDocstring body)
      let slots ← within (fun b ↦ node ds a b) (visitBlock plan true body)
      return node ds a (← countEntry plan key hasDocstring (finished slots))
    | .lambda, [.child args, .child body] =>
      let node (a b : Node) : Node := .mk i .lambda p [.child a, .child b]
      let key ← leaving (node args body) (registerUnit plan .function (node args body) (some "<lambda>"))
      let a ← within (fun a ↦ node a body) (visit plan args)
      let b ← within (fun b ↦ node a b) (visit plan body)
      let b ← wrap plan key b
      mark i
      return node a b
    | .ifStmt, fs =>
      let marks := (← get).marks
      let keys ← leaving (.mk i .ifStmt p fs) do
        let arms ← located (chainArms plan marks (.mk i .ifStmt p fs))
        registerGroup plan .ifChain (.mk i .ifStmt p fs) arms
      visitChain plan i p keys fs
    | .ifExp, [.child test, .child body, .child orelse] =>
      let node (t b o : Node) : Node := .mk i .ifExp p [.child t, .child b, .child o]
      let keys ← leaving (node test body orelse) do
        let first ← located (locate body)
        let second ← located (locate orelse)
        registerGroup plan .ternary (node test body orelse) [first, second]
      let t ← within (fun t ↦ node t body orelse) (visit plan test)
      let b ← within (fun b ↦ node t b orelse) (visit plan body)
      let b ← wrap plan (keyAt keys 0) b
      let o ← within (fun o ↦ node t b o) (visit plan orelse)
      let o ← wrap plan (keyAt keys 1) o
      mark i
      return node t b o
    | .boolOp, [op, .many values] =>
      let node (vs : List Node) : Node := .mk i .boolOp p [op, .many vs]
      let keys ← leaving (node values) do
        let arms ← located (values.mapM locate)
        registerGroup plan .logical (node values) arms
      let slots ← within node (visitOperands plan keys values)
      mark i
      return node (slots.map (·.2))
    | .matchStmt, [.child subject, .many cases] =>
      let node (s : Node) (cs : List Node) : Node := .mk i .matchStmt p [.child s, .many cs]
      let hasDefault ← leaving (node subject cases) (lastIsDefault cases)
      let keys ← leaving (node subject cases) do
        let arms ← located (matchArms subject cases hasDefault)
        registerGroup plan .matchCases (node subject cases) arms
      let s ← within (fun s ↦ node s cases) (visit plan subject)
      let cs ← within (fun cs ↦ node s cs) (visitCases plan keys cases)
      let cs ← if hasDefault then pure cs else addFallback plan (keyAt keys cases.length) s cs
      return node s cs
    | .whileLoop, [.child test, .many body, .many orelse] =>
      let node (t : Node) (b o : List Node) : Node := .mk i .whileLoop p [.child t, .many b, .many o]
      let keys ← leaving (node test body orelse) do
        let arms ← located (loopArms test body orelse)
        registerGroup plan .whileLoop (node test body orelse) arms
      let t ← within (fun t ↦ node t body orelse) (visit plan test)
      let slots ← within (fun b ↦ node t b orelse) (visitBlock plan false body)
      let b ← prepend plan (keyAt keys 0) (finished slots)
      let slots ← within (fun o ↦ node t b o) (visitBlock plan false orelse)
      return node t b (← elseClause plan (keyAt keys 1) t.place slots)
    | .forLoop async, [.child target, .child iter, .many body, .many orelse, comment] =>
      let node (t s : Node) (b o : List Node) : Node :=
        .mk i (.forLoop async) p [.child t, .child s, .many b, .many o, comment]
      let keys ← leaving (node target iter body orelse) do
        let arms ← located (loopArms iter body orelse)
        registerGroup plan .forLoop (node target iter body orelse) arms
      let t ← within (fun t ↦ node t iter body orelse) (visit plan target)
      let s ← within (fun s ↦ node t s body orelse) (visit plan iter)
      let slots ← within (fun b ↦ node t s b orelse) (visitBlock plan false body)
      let b ← prepend plan (keyAt keys 0) (finished slots)
      let slots ← within (fun o ↦ node t s b o) (visitBlock plan false orelse)
      return node t s b (← elseClause plan (keyAt keys 1) s.place slots)
    | .tryStmt star, [.many body, .many handlers, .many orelse, .many finalbody] =>
      let node (b h o f : List Node) : Node := .mk i (.tryStmt star) p [.many b, .many h, .many o, .many f]
      let keys ← leaving (node body handlers orelse finalbody) do
        let arms ← located (tryArms body handlers finalbody)
        registerGroup plan .tryBody (node body handlers orelse finalbody) arms
      let slots ← within (fun b ↦ node b handlers orelse finalbody) (visitBlock plan false body)
      let h ← within (fun h ↦ node (bare slots) h orelse finalbody) (visitHandlers plan handlers)
      let o ← within (fun o ↦ node (bare slots) h o finalbody) (visitBlock plan false orelse)
      let f ← within (fun f ↦ node (bare slots) h (finished o) f) (visitBlock plan false finalbody)
      let b ← guardBody plan keys (finished slots)
      return node b h (finished o) (finished f)
    | c, fs =>
      let fs ← within (fun fs ↦ .mk i c p fs) (visitFields plan c.fieldNames fs)
      return .mk i c p fs

/-- Walks along an `if` chain: as long as there are keys for more than this link and its `else`, the `else`
is the next link. -/
def visitChain (plan : Plan) (i : NodeId) (p : Place) (keys : List (Option Key)) : List Field → Visit Node Node
  | [.child test, .many body, .many orelse] => do
    let node (t : Node) (b o : List Node) : Node := .mk i .ifStmt p [.child t, .many b, .many o]
    let t ← within (fun t ↦ node t body orelse) (visit plan test)
    let slots ← within (fun b ↦ node t b orelse) (visitBlock plan false body)
    let b ← prepend plan (keyAt keys 0) (finished slots)
    mark i
    match keys, orelse with
    | _ :: key :: key' :: keys, [.mk j .ifStmt q fs] =>
      let o ← within (fun o ↦ node t b [o]) (visitChain plan j q (key :: key' :: keys) fs)
      return node t b [o]
    | keys, orelse =>
      let slots ← within (fun o ↦ node t b o) (visitBlock plan false orelse)
      return node t b (← elseClause plan (keyAt keys 1) t.place slots)
  | fs => return .mk i .ifStmt p fs

/-- Walks through a block. In the body of a module, class or function the docstring has no counter. -/
def visitBlock (plan : Plan) (docstring : Bool) : List Node → Visit (List Node) (List Slot)
  | [] => return []
  | s :: rest => do
    if ← isMarked s then
      return ⟨none, s⟩ :: (← within (s :: ·) (visitBlock plan false rest))
    if plan.excludes s then
      leaving (s :: rest) (noteExcluded s)
      return ⟨none, s⟩ :: (← within (s :: ·) (visitBlock plan false rest))
    if (docstring && s.isDocstring) || s.isFutureImport then
      return ⟨none, s⟩ :: (← within (s :: ·) (visitBlock plan false rest))
    let key ← leaving (s :: rest) (registerUnit plan .statement s none)
    let s' ← within (· :: rest) (visit plan s)
    markNode s
    let before ← countBefore plan key s.place
    return ⟨before, s'⟩ :: (← within (s' :: ·) (visitBlock plan false rest))

/-- Walks through operands; each comes with its counted form. -/
def visitOperands (plan : Plan) : List (Option Key) → List Node → Visit (List Node) (List (Node × Node))
  | key :: keys, v :: vs => do
    let v' ← within (· :: vs) (visit plan v)
    let w ← wrap plan key v'
    return (v', w) :: (← within (v' :: ·) (visitOperands plan keys vs))
  | _, _ => return []

/-- Walks through cases. Patterns are left alone. -/
def visitCases (plan : Plan) : List (Option Key) → List Node → Visit (List Node) (List Node)
  | key :: keys, .mk i c p [pattern, guard, .many body] :: rest => do
    let node (g : Field) (b : List Node) : Node := .mk i c p [pattern, g, .many b]
    let g ← within (fun g ↦ node g body :: rest) (visitField plan guard)
    let slots ← within (fun b ↦ node g b :: rest) (visitBlock plan false body)
    let b ← prepend plan key (finished slots)
    mark i
    return node g b :: (← within (node g b :: ·) (visitCases plan keys rest))
  | _, cases => return cases

/-- Walks through exception handlers. -/
def visitHandlers (plan : Plan) : List Node → Visit (List Node) (List Node)
  | .mk i c p [type, name, .many body] :: rest => do
    let node (t : Field) (b : List Node) : Node := .mk i c p [t, name, .many b]
    let t ← within (fun t ↦ node t body :: rest) (visitField plan type)
    let slots ← within (fun b ↦ node t b :: rest) (visitBlock plan false body)
    mark i
    return node t (finished slots) :: (← within (node t (finished slots) :: ·) (visitHandlers plan rest))
  | handlers => return handlers

/-- Walks through the fields of a node, given their names. -/
def visitFields (plan : Plan) : List String → List Field → Visit (List Field) (List Field)
  | name :: names, f :: fs => do
    let f ← if isSkippedField name then pure f else within (· :: fs) (visitField plan f)
    return f :: (← within (f :: ·) (visitFields plan names fs))
  | _, fs => return fs

/-- Walks into a field. A list that starts with a statement is a block. -/
def visitField (plan : Plan) : Field → Visit Field Field
  | .child n => return .child (← within .child (visit plan n))
  | .many ns => do
    if startsBlock ns then return .many (finished (← within .many (visitBlock plan false ns)))
    return .many (← within .many (visitAll plan ns))
  | f => return f

def visitAll (plan : Plan) : List Node → Visit (List Node) (List Node)
  | [] => return []
  | n :: ns => do
    let n' ← within (· :: ns) (visit plan n)
    return n' :: (← within (n' :: ·) (visitAll plan ns))
end

end Coverage.Pass
