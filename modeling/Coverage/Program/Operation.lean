import Coverage.Program.Machine

/-!
# Operations on values

Comparison, arithmetic, access to items and the operations that every program can use. Truth values count
as the numbers zero and one.
-/

namespace Coverage.Program

def truth (v : Value) : Step Bool := look (·.isTrue v)

/-! ## Equality -/

/-- Compares two lists item by item, up to the first difference. -/
def allEqual (equal : Value → Value → Option Bool) : List Value → List Value → Option Bool
  | [], [] => some true
  | v :: vs, w :: ws => do
    if ← equal v w then allEqual equal vs ws
    else some false
  | _, _ => some false

def sameRange (start stop step start' stop' step' : Int) : Bool :=
  let n := Heap.rangeLength start stop step
  n == Heap.rangeLength start' stop' step' && (n == 0 || (start == start' && (n == 1 || step == step')))

/-- Whether two values are equal. The fuel bounds how deep lists can be nested. -/
def equal? (h : Heap) : Nat → Value → Value → Option Bool
  | 0, _, _ => none
  | fuel + 1, v, w =>
    if v = w then if v.isPlain then some true else none
    else
      match v.int?, w.int? with
      | some m, some n => some (m == n)
      | _, _ =>
        match v, w with
        | .range a b c, .range a' b' c' => some (sameRange a b c a' b' c')
        | v, w =>
          match h.list? v, h.list? w, h.tuple? v, h.tuple? w with
          | some vs, some ws, _, _ => allEqual (equal? h fuel) vs.toList ws.toList
          | _, _, some vs, some ws => allEqual (equal? h fuel) vs.toList ws.toList
          | _, _, _, _ => some false

/-- Lists that are not part of themselves are not nested deeper than there are objects. -/
def equal (v w : Value) : Step Bool := do
  match ← look fun h ↦ equal? h (h.size + 1) v w with
  | some b => return b
  | none => stuck

/-- Whether two values are the same object. A tuple that is made anew can be one that is there already. -/
def identical? (h : Heap) (v w : Value) : Option Bool :=
  if v = w then if v.isObject then some true else none
  else if (h.tuple? v).isSome && (h.tuple? w).isSome then none
  else some false

def identical (v w : Value) : Step Bool := do
  match ← look (identical? · v w) with
  | some b => return b
  | none => stuck

/-! ## Order -/

/-- How an order is asked for. -/
structure Order where
  symbol : String
  ints : Int → Int → Bool
  texts : String → String → Bool

def Order.lt : Order := ⟨"<", fun a b ↦ decide (a < b), fun a b ↦ decide (a < b)⟩

def Order.le : Order := ⟨"<=", fun a b ↦ decide (a ≤ b), fun a b ↦ !decide (b < a)⟩

def Order.gt : Order := ⟨">", fun a b ↦ decide (b < a), fun a b ↦ decide (b < a)⟩

def Order.ge : Order := ⟨">=", fun a b ↦ decide (b ≤ a), fun a b ↦ !decide (a < b)⟩

/-- Two lists stand in the order of the first items that differ, or else of their lengths. -/
def ordered (h : Heap) (o : Order) (order : Value → Value → Option (Except Problem Bool))
    (lengths : Bool) : List Value → List Value → Option (Except Problem Bool)
  | v :: vs, w :: ws => do
    if ← equal? h (h.size + 1) v w then ordered h o order lengths vs ws
    else order v w
  | _, _ => some (.ok lengths)

def order? (h : Heap) (o : Order) : Nat → Value → Value → Option (Except Problem Bool)
  | 0, _, _ => none
  | fuel + 1, v, w =>
    match v.int?, w.int? with
    | some m, some n => some (.ok (o.ints m n))
    | _, _ =>
      match v, w with
      | .const (.str s), .const (.str t) => some (.ok (o.texts s t))
      | v, w =>
        let lists (vs ws : Array Value) :=
          ordered h o (order? h o fuel) (o.ints vs.size ws.size) vs.toList ws.toList
        match h.list? v, h.list? w, h.tuple? v, h.tuple? w with
        | some vs, some ws, _, _ => lists vs ws
        | _, _, some vs, some ws => lists vs ws
        | _, _, _, _ => some (.error (.incomparable o.symbol (h.typeName v) (h.typeName w)))

def compareBy (o : Order) (v w : Value) : Step Bool := do
  match ← look fun h ↦ order? h o (h.size + 1) v w with
  | some result => orFail result
  | none => stuck

/-! ## Membership -/

/-- Whether a text occurs in another. -/
def occurs (s : List Char) : List Char → Bool
  | [] => s.isEmpty
  | c :: t => s.isPrefixOf (c :: t) || occurs s t

def anyEqual (v : Value) : List Value → Step Bool
  | [] => return false
  | w :: ws => do
    if ← equal w v then return true
    anyEqual v ws

/-- Whether a value is in another. What a ledger holds is not for programs. -/
def contains (v container : Value) : Step Bool := do
  match container with
  | .ledger _ => stuck
  | .const (.str t) =>
    match v with
    | .const (.str s) => return occurs s.toList t.toList
    | v => fail (.notSubstring (← look (·.typeName v)))
  | container =>
    match ← look (·.items? container) with
    | some items => anyEqual v items.toList
    | none => fail (.notSearchable (← look (·.typeName container)))

def Relation.holds (r : Relation) (v w : Value) : Step Bool := do
  match r with
  | .eq => equal v w
  | .ne => return !(← equal v w)
  | .lt => compareBy .lt v w
  | .le => compareBy .le v w
  | .gt => compareBy .gt v w
  | .ge => compareBy .ge v w
  | .same => identical v w
  | .notSame => return !(← identical v w)
  | .mem => contains v w
  | .notMem => return !(← contains v w)

/-! ## Arithmetic -/

def Arith.ints (op : Arith) (m n : Int) : Except Problem Int :=
  match op with
  | .add => .ok (m + n)
  | .sub => .ok (m - n)
  | .mul => .ok (m * n)
  | .floorDiv => if n = 0 then .error .divisionByZero else .ok (m.fdiv n)
  | .mod => if n = 0 then .error .moduloByZero else .ok (m.fmod n)

/-- A text a number of times. -/
def repeatText (s : String) (n : Nat) : String := String.join (List.replicate n s)

/-- The items a number of times. -/
def repeatItems (items : Array Value) (n : Nat) : Array Value := (List.replicate n items.toList).flatten.toArray

/-- Why two values cannot be joined; a sequence takes only its own type. -/
def notJoined (h : Heap) (symbol : String) (v w : Value) : Problem :=
  match v, h.list? v, h.tuple? v with
  | .const (.str _), _, _ => .concatenation (h.typeName v) (h.typeName w)
  | v, none, none => .operands symbol (h.typeName v) (h.typeName w)
  | v, _, _ => .concatenation (h.typeName v) (h.typeName w)

/-- Joins two sequences of one type. -/
def concatenate (symbol : String) (v w : Value) : Step Value := do
  let h := (← get).heap
  match v, w with
  | .const (.str s), .const (.str t) => return .str (s ++ t)
  | v, w =>
    match h.list? v, h.list? w, h.tuple? v, h.tuple? w with
    | some vs, some ws, _, _ => allocate (.list (vs ++ ws))
    | _, _, some vs, some ws => allocate (.tuple (vs ++ ws))
    | _, _, _, _ => fail (notJoined h symbol v w)

/-- A sequence a number of times, if it is one. -/
def repeated? (h : Heap) (v : Value) (n : Int) : Option (Step Value) :=
  match v with
  | .const (.str s) => some (return .str (repeatText s n.toNat))
  | v =>
    match h.list? v, h.tuple? v with
    | some items, _ => some (allocate (.list (repeatItems items n.toNat)))
    | _, some items => some (allocate (.tuple (repeatItems items n.toNat)))
    | _, _ => none

def multiply (symbol : String) (v w : Value) : Step Value := do
  let h := (← get).heap
  match v.int?, w.int? with
  | _, some n =>
    match repeated? h v n with
    | some x => x
    | none => fail (.operands symbol (h.typeName v) (h.typeName w))
  | some n, _ =>
    match repeated? h w n with
    | some x => x
    | none => fail (.operands symbol (h.typeName v) (h.typeName w))
  | none, none =>
    match repeated? h v 0, repeated? h w 0 with
    | some _, _ => fail (.repetition (h.typeName w))
    | _, some _ => fail (.repetition (h.typeName v))
    | _, _ => fail (.operands symbol (h.typeName v) (h.typeName w))

/-- Whether a text can leave a value unused that is to fill its places: nothing, or a collection. -/
def canBeUnused (h : Heap) : Value → Bool
  | .range _ _ _ => true
  | w => (h.list? w).isSome || (h.tuple? w).any Array.isEmpty

/-- A text with its places filled. Only texts without places are in the fragment. -/
def formatText (s : String) (w : Value) : Step Value := do
  if s.toList.contains '%' then stuck
  else if ← look (canBeUnused · w) then return .str s
  else fail .unusedArguments

/-- The value of an operation; `symbol` is what the program wrote. -/
def Arith.apply (op : Arith) (symbol : String) (v w : Value) : Step Value := do
  match v.int?, w.int? with
  | some m, some n => return .int (← orFail (op.ints m n))
  | _, _ =>
    match op, v with
    | .add, v => concatenate symbol v w
    | .mul, v => multiply symbol v w
    | .mod, .const (.str s) => formatText s w
    | _, v =>
      let h := (← get).heap
      fail (.operands symbol (h.typeName v) (h.typeName w))

/-- The value of an operation that assigns. A list changes in place. -/
def Arith.update (op : Arith) (v w : Value) : Step Value := do
  let h := (← get).heap
  match op, v, h.list? v with
  | .add, .object r, some items =>
    match h.items? w with
    | some more =>
      replace r (.list (items ++ more))
      return v
    | none => fail (.notIterable (h.typeName w))
  | .mul, .object r, some items =>
    match w.int? with
    | some n =>
      replace r (.list (repeatItems items n.toNat))
      return v
    | none => fail (.repetition (h.typeName w))
  | op, v, _ => op.apply (op.symbol ++ "=") v w

def Unary.apply (op : Unary) (v : Value) : Step Value := do
  let h := (← get).heap
  match op with
  | .not => return .bool (!h.isTrue v)
  | .neg =>
    match v.int? with
    | some n => return .int (-n)
    | none => fail (.operand (h.typeName v))

/-! ## Items and attributes -/

/-- The item of a sequence at an index; negative indices count from the end. -/
def itemAt (v index : Value) : Step Value := do
  let h := (← get).heap
  match h.length? v, index.int? with
  | none, _ =>
    match v with
    | .cls _ | .builtin _ => stuck
    | v => fail (.notSubscriptable (h.typeName v))
  | some _, none => fail (.indexType (h.typeName v) (h.typeName index))
  | some n, some i =>
    let i := if i < 0 then i + n else i
    match (if i < 0 then none else h.item? v i.toNat) with
    | some item => return item
    | none => fail (.indexOutOfRange (h.typeName v))

/-- The attributes of the fragment: what counters use of a ledger, and the operation that adds to a list. Constants
and objects have no others of these names, and of other names nothing is known. -/
def attributeOf (v : Value) (name : String) : Step Value := do
  let h := (← get).heap
  match v, name, h.list? v with
  | .ledger l, "hit", _ => return .hit l
  | .ledger l, "guard", _ => return .guard l
  | .object r, "append", some _ => return .append r
  | .const _, name, _ | .object _, name, _ =>
    if ["hit", "guard", "append"].contains name then fail (.noAttribute (h.typeName v) name) else stuck
  | _, _, _ => stuck

/-! ## Names -/

/-- The functions and classes of the language that are outside the fragment. -/
def foreignBuiltins : List String :=
  ["BaseExceptionGroup", "BlockingIOError", "BrokenPipeError", "BufferError", "BytesWarning", "ChildProcessError",
    "ConnectionAbortedError", "ConnectionError", "ConnectionRefusedError", "ConnectionResetError",
    "DeprecationWarning", "EOFError", "Ellipsis", "EncodingWarning", "EnvironmentError", "ExceptionGroup", "False",
    "FileExistsError", "FileNotFoundError", "FloatingPointError", "FutureWarning", "GeneratorExit", "IOError",
    "ImportError", "ImportWarning", "IndentationError", "InterruptedError", "IsADirectoryError", "KeyboardInterrupt",
    "MemoryError", "ModuleNotFoundError", "None", "NotADirectoryError", "NotImplemented", "NotImplementedError",
    "OSError", "OverflowError", "PendingDeprecationWarning", "PermissionError", "ProcessLookupError",
    "RecursionError", "ReferenceError", "ResourceWarning", "RuntimeWarning", "StopAsyncIteration", "StopIteration",
    "SyntaxError", "SyntaxWarning", "SystemError", "TabError", "TimeoutError", "True", "UnicodeDecodeError",
    "UnicodeEncodeError", "UnicodeError", "UnicodeTranslateError", "UnicodeWarning", "UserWarning", "Warning",
    "__build_class__", "__builtins__", "__debug__", "__doc__", "__import__", "__loader__", "__name__", "__package__",
    "__spec__", "abs", "aiter", "all", "anext", "any", "ascii", "bin", "bool", "breakpoint", "bytearray", "bytes",
    "callable", "chr", "classmethod", "compile", "complex", "copyright", "credits", "delattr", "dict", "dir",
    "divmod", "enumerate", "eval", "exec", "exit", "filter", "float", "format", "frozenset", "getattr", "globals",
    "hasattr", "hash", "help", "hex", "id", "input", "int", "isinstance", "issubclass", "iter", "license", "list",
    "locals", "map", "max", "memoryview", "min", "next", "object", "oct", "open", "ord", "pow", "print", "property",
    "quit", "repr", "reversed", "round", "set", "setattr", "slice", "sorted", "staticmethod", "str", "sum", "super",
    "tuple", "type", "vars", "zip"]

/-- The value of a name that the module does not bind. -/
def loadBuiltin (x : String) : Step Value := do
  match (← get).globals.get? builtinsName with
  | some v => itemAt v (.str x)
  | none =>
    match builtin? x with
    | some v => return v
    | none => if foreignBuiltins.contains x then stuck else fail (.unknownName x)

def load (env : Env) (x : String) : Step Value := do
  let s ← get
  match home x env with
  | .module =>
    match s.globals.get? x with
    | some v => return v
    | none => loadBuiltin x
  | .frame frame own =>
    match (s.frames[frame]?).bind (·.get? x) with
    | some v => return v
    | none => fail (if own then .unboundLocal x else .unboundOuter x)

/-- An import takes the operation that imports from the functions of the language. -/
def checkImport : Step Unit := do
  match (← get).globals.get? builtinsName with
  | some _ => stuck
  | none => return

/-! ## Calls -/

/-- The whole numbers that a range is made of. -/
def rangeArguments (h : Heap) : List Value → Except Problem (List Int)
  | [] => .ok []
  | v :: vs =>
    match v.int? with
    | some n => (rangeArguments h vs).map (n :: ·)
    | none => .error (.noInteger (h.typeName v))

/-- A range by its numbers: the end, start and end, or these and the step. -/
def rangeOf : List Int → Except Problem Value
  | [stop] => .ok (.range 0 stop 1)
  | [start, stop] => .ok (.range start stop 1)
  | [start, stop, step] => if step = 0 then .error .zeroStep else .ok (.range start stop step)
  | _ => .error .tooFewForRange

def makeRange (h : Heap) (args : List Value) : Except Problem Value :=
  if args.isEmpty then .error .tooFewForRange
  else if 3 < args.length then .error (.tooManyForRange args.length)
  else (rangeArguments h args).bind rangeOf

def Builtin.apply (b : Builtin) (args : List Value) : Step Value := do
  let h := (← get).heap
  match b, args with
  | .len, [v] =>
    match h.length? v with
    | some n => return .int n
    | none => fail (.noLength (h.typeName v))
  | .len, args => fail (.argumentCount "len" args.length)
  | .range, args => orFail (makeRange h args)

def appendItem (r : Ref) (args : List Value) : Step Value := do
  match args, ← look (·.list? (.object r)) with
  | [v], some items =>
    replace r (.list (items.push v))
    return .none
  | args, _ => fail (.argumentCount "list.append" args.length)

/-- The frame in which the body of a function starts. -/
def Closure.frame (f : Closure) (args : List Value) : Except Problem Namespace :=
  let most := f.params.length
  let least := most - f.defaults.length
  if most < args.length then .error (.tooManyArguments f.fullName least most args.length)
  else if args.length < least then
    .error (.missingArguments f.fullName ((f.params.take least).drop args.length))
  else .ok (.ofList (f.params.zip (args ++ f.defaults.drop (args.length - least))))

/-- Whether an exception is of a class, or of one of a tuple of classes. -/
def catches (exception types : Value) : Step Bool := do
  let h := (← get).heap
  let classes := ((h.tuple? types).map Array.toList).getD [types]
  let named := classes.filterMap fun
    | .cls c => some c
    | _ => none
  if named.length < classes.length then fail .notCatchable
  else
    match h.exception? exception with
    | some (c, _) => return named.any c.isA
    | none => return false

/-- The exception that a value stands for when it is raised. -/
def raisable (v : Value) : Step Value := do
  match v with
  | .cls c => allocate (.exception c [])
  | v =>
    match ← look (·.exception? v) with
    | some _ => return v
    | none => fail .notException

end Coverage.Program
