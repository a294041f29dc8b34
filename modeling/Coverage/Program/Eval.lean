import Coverage.Program.Operation

/-!
# Evaluation

Expressions and statements are evaluated along their structure. Two things go beyond it: the body of a
function that is called, which is left to `Context.call`, and the rounds of a loop, which are bounded. A
call runs with a context that allows one call less.
-/

namespace Coverage.Program

open Syntax (NodeId)

/-- What evaluation is given. -/
structure Context where
  /-- Runs the body of a function with its arguments. -/
  call : Closure → List Value → Step Value
  /-- How many rounds a loop can take. -/
  rounds : Nat

/-- How a statement ends. -/
inductive Flow where
  | next
  | leave
  | again
  | give (v : Value)
  deriving DecidableEq, Repr

/-- The name of a function with the functions around it. -/
def fullName (env : Env) (name : String) : String :=
  match env with
  | [] => name
  | s :: _ => if s.globals.contains name then name else s.name ++ ".<locals>." ++ name

def Context.apply (c : Context) (f : Value) (args : List Value) : Step Value := do
  match f with
  | .builtin b => b.apply args
  | .cls cls => allocate (.exception cls args)
  | .append r => appendItem r args
  | .hit l =>
    match args with
    | [.const (.str file), .const (.str key)] =>
      modifyLedger l (·.hit file key)
      return .none
    | _ => stuck
  | .guard l =>
    match args with
    | [.const (.str file), .const (.str ok), .const (.str error)] => return .guardOf l file ok error
    | _ => stuck
  | f =>
    match ← look (·.function? f) with
    | some closure => c.call closure args
    | none => fail (.notCallable (← look (·.typeName f)))

/-- Whether a sequence has an item at a position, which then becomes the value of a name. -/
def advance (env : Env) (target : String) (source : Value) (i : Nat) : Step Bool := do
  match ← look (·.item? source i) with
  | some item =>
    bind env target item
    return true
  | none => return false

/-- Only sequences have items. -/
def checkIterable (v : Value) : Step Unit := do
  if (← look (·.length? v)).isNone then fail (.notIterable (← look (·.typeName v)))

/-- The items of a comprehension: those of the rounds that are kept. -/
def collectItems (more : Nat → Step Bool) (keep : Step Bool) (item : Step Value) :
    Nat → Nat → Array Value → Step (Array Value)
  | 0, _, _ => throw .outOfFuel
  | fuel + 1, i, items => do
    if ← more i then
      if ← keep then
        let v ← item
        collectItems more keep item fuel (i + 1) (items.push v)
      else collectItems more keep item fuel (i + 1) items
    else return items

/-- A loop: `more` says whether there is another round. -/
def loop (id : NodeId) (more : Nat → Step Bool) (body orelse : Step Flow) : Nat → Nat → Step Flow
  | 0, _ => throw .outOfFuel
  | fuel + 1, i => do
    if ← more i then
      record (.took id 0)
      match ← body with
      | .leave => return .next
      | .give v => return .give v
      | _ => loop id more body orelse fuel (i + 1)
    else
      record (.took id 1)
      orelse

mutual
def Expr.eval (c : Context) (env : Env) : Expr → Step Value
  | .const k => return .const k
  | .name x => load env x
  | .arith op left right => do
    let v ← left.eval c env
    let w ← right.eval c env
    op.apply op.symbol v w
  | .unary op e => do op.apply (← e.eval c env)
  | .compare first relations rest => do evalChain c env (← first.eval c env) relations rest
  | .logic id op operands => evalLogic c env id op 0 operands
  | .ifElse id test body orelse => do
    if ← truth (← test.eval c env) then
      record (.took id 0)
      body.eval c env
    else
      record (.took id 1)
      orelse.eval c env
  | .call f args => do
    let v ← f.eval c env
    c.apply v (← evalAll c env args)
  | .lambda id params defaults body => do
    let defaults ← evalAll c env defaults
    allocate (.function
      { id, name := "<lambda>", fullName := fullName env "<lambda>", params, defaults, env,
        body := .expr body, locals := params, globals := [] })
  | .list items => do allocate (.list (← evalAll c env items).toArray)
  | .tuple items => do allocate (.tuple (← evalAll c env items).toArray)
  | .collect item target source conditions => do
    let v ← source.eval c env
    checkIterable v
    let scope : Scope := ⟨fullName env "<listcomp>", ← pushFrame {}, [target], []⟩
    let items ← collectItems (advance (scope :: env) target v) (evalConditions c (scope :: env) conditions)
      (item.eval c (scope :: env)) c.rounds 0 #[]
    allocate (.list items)
  | .item e index => do
    let v ← e.eval c env
    itemAt v (← index.eval c env)
  | .attribute e name => do attributeOf (← e.eval c env) name
  | .foreign => stuck

def evalAll (c : Context) (env : Env) : List Expr → Step (List Value)
  | [] => return []
  | e :: es => do
    let v ← e.eval c env
    return v :: (← evalAll c env es)

/-- A chain of comparisons stops at the first that does not hold. -/
def evalChain (c : Context) (env : Env) (v : Value) : List Relation → List Expr → Step Value
  | r :: rs, e :: es => do
    let w ← e.eval c env
    if ← r.holds v w then
      if es.isEmpty then return .bool true
      evalChain c env w rs es
    else return .bool false
  | _, _ => return .bool true

/-- The operands are evaluated up to the one that decides. -/
def evalLogic (c : Context) (env : Env) (id : NodeId) (op : Logic) (i : Nat) : List Expr → Step Value
  | [] => stuck
  | e :: es => do
    record (.took id i)
    let v ← e.eval c env
    if es.isEmpty then return v
    if (← truth v) == (op == .or) then return v
    evalLogic c env id op (i + 1) es

def evalConditions (c : Context) (env : Env) : List Expr → Step Bool
  | [] => return true
  | e :: es => do
    if ← truth (← e.eval c env) then evalConditions c env es
    else return false
end

def Expr.test (c : Context) (env : Env) (e : Expr) : Step Bool := do truth (← e.eval c env)

/-- Whether the guard of a case holds. A case without a guard needs nothing more than its pattern. -/
def guardHolds (c : Context) (env : Env) : Option Expr → Step Bool
  | none => return true
  | some g => g.test c env

/-- Whether a handler is for an exception. A handler without classes is for every exception. -/
def handles (c : Context) (env : Env) (e : Value) : Option Expr → Step Bool
  | none => return true
  | some t => do catches e (← t.eval c env)

mutual
def Pattern.matchValue (c : Context) (env : Env) (v : Value) : Pattern → Step (Option (List (String × Value)))
  | .value e => do
    if ← equal v (← e.eval c env) then return some []
    return none
  | .singleton k => return if v = .const k then some [] else none
  | .any => return some []
  | .capture inner x => return (← inner.matchValue c env v).map (· ++ [(x, v)])
  | .or alternatives => matchAny c env v alternatives
  | .foreign => stuck

/-- The first alternative that matches. -/
def matchAny (c : Context) (env : Env) (v : Value) : List Pattern → Step (Option (List (String × Value)))
  | [] => return none
  | p :: ps => do
    match ← p.matchValue c env v with
    | some bindings => return some bindings
    | none => matchAny c env v ps
end

/-- Runs a block and then, in any case, another one. When that one ends otherwise than by going on, this is
how both end. -/
def ensuring (x final : Step Flow) : Step Flow := do
  match ← attempt x with
  | .ok flow =>
    match ← final with
    | .next => return flow
    | other => return other
  | .error e =>
    match ← handling e final with
    | .next => throwValue e
    | other => return other

/-- Runs a handler. The name for the exception, if it has one, has a value only meanwhile. -/
def naming (env : Env) (e : Value) (name : Option String) (x : Step Flow) : Step Flow := do
  match name with
  | none => x
  | some name =>
    bind env name e
    let result ← attempt x
    unbind env name
    resume result

mutual
def Stmt.exec (c : Context) (env : Env) (s : Stmt) : Step Flow := do
  match s with
  | .expr _ e =>
    let _ ← e.eval c env
    return .next
  | .assign _ targets value =>
    bindAll env (← value.eval c env) targets
    return .next
  | .augment _ target op value =>
    let v ← load env target
    let w ← value.eval c env
    bind env target (← op.update v w)
    return .next
  | .ifElse id test body orelse =>
    if ← test.test c env then
      record (.took id 0)
      execAll c env body
    else
      record (.took id 1)
      execAll c env orelse
  | .whileLoop id test body orelse =>
    loop id (fun _ ↦ test.test c env) (execAll c env body) (execAll c env orelse) c.rounds 0
  | .forLoop id target source body orelse =>
    let v ← source.eval c env
    checkIterable v
    loop id (advance env target v) (execAll c env body) (execAll c env orelse) c.rounds 0
  | .breakLoop _ => return .leave
  | .continueLoop _ => return .again
  | .pass _ => return .next
  | .giveBack _ none => return .give .none
  | .giveBack _ (some e) => return .give (← e.eval c env)
  | .define id name params defaults body =>
    let defaults ← evalAll c env defaults
    let f ← allocate (.function
      { id, name, fullName := fullName env name, params, defaults, env, body := .block body,
        locals := localNames params body, globals := declaredAll body })
    bind env name f
    return .next
  | .global _ _ => return .next
  | .raise _ none =>
    match (← get).handled with
    | e :: _ => throwValue e
    | [] => fail .nothingToRaise
  | .raise _ (some e) => throwValue (← raisable (← e.eval c env))
  | .attempt id body handlers orelse final =>
    ensuring (do
      match ← attempt (execAll c env body) with
      | .ok flow =>
        record (.took id 0)
        if flow = .next then execAll c env orelse else return flow
      | .error e =>
        record (.took id 1)
        handling e (execHandlers c env e handlers))
      (execAll c env final)
  | .choose id subject cases => do execCases c env id (← subject.eval c env) 0 cases
  | .future _ names =>
    checkImport
    bindAll env .feature names
    return .next
  | .guarded _ manager body =>
    match ← manager.eval c env with
    | .guardOf l file ok error =>
      match ← attempt (execAll c env body) with
      | .ok flow =>
        modifyLedger l (·.leave file ok error .normal)
        return flow
      | .error e =>
        modifyLedger l (·.leave file ok error .raised)
        throwValue e
    | v => fail (.noContext (← look (·.typeName v)))
  | .foreign _ => stuck

/-- The statements of a block, up to one that does not go on. -/
def execAll (c : Context) (env : Env) : List Stmt → Step Flow
  | [] => return .next
  | s :: ss => do
    record (.started s.id)
    match ← s.exec c env with
    | .next => execAll c env ss
    | flow => return flow

/-- The first handler that catches an exception. -/
def execHandlers (c : Context) (env : Env) (e : Value) : List Handler → Step Flow
  | [] => throwValue e
  | .mk types name body :: hs => do
    if ← handles c env e types then naming env e name (execAll c env body)
    else execHandlers c env e hs

/-- The first case whose pattern matches and whose guard holds. -/
def execCases (c : Context) (env : Env) (id : NodeId) (v : Value) (i : Nat) : List Case → Step Flow
  | [] => do
    record (.took id i)
    return .next
  | .mk pattern guard body :: cs => do
    match ← pattern.matchValue c env v with
    | none => execCases c env id v (i + 1) cs
    | some bindings =>
      bindPairs env bindings
      if ← guardHolds c env guard then
        record (.took id i)
        execAll c env body
      else execCases c env id v (i + 1) cs
end

def Body.run (c : Context) (env : Env) : Body → Step Value
  | .expr e => e.eval c env
  | .block ss => do
    match ← execAll c env ss with
    | .give v => return v
    | _ => return .none

/-- Calls a function, with a bound on how many calls can be open at once. -/
def callClosure (rounds : Nat) : Nat → Closure → List Value → Step Value
  | 0, _, _ => throw .outOfFuel
  | depth + 1, f, args => do
    let frame ← pushFrame (← orFail (f.frame args))
    record (.entered f.id)
    f.body.run ⟨callClosure rounds depth, rounds⟩ (⟨f.fullName, frame, f.locals, f.globals⟩ :: f.env)

/-- Bounds of a run. -/
structure Limits where
  rounds : Nat
  depth : Nat

def Limits.context (l : Limits) : Context := ⟨callClosure l.rounds l.depth, l.rounds⟩

end Coverage.Program

namespace Coverage

open Program

/-- Runs a module. Its docstring becomes a variable. -/
def Program.run (limits : Limits) (p : Program) : Step Unit := do
  match p.doc with
  | some s => bind [] "__doc__" (.str s)
  | none => pure ()
  let _ ← execAll limits.context [] p.body

end Coverage
