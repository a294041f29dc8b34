import Coverage.Datum
import Coverage.Syntax.Node

/-!
# Trees as data

A node is a map: `_` is its class, `@` its place, and every other key a field. Reading gives the nodes
identities of their own; writing can say which nodes are marked.
-/

namespace Coverage.Syntax

/-- The integer that a decimal text stands for. -/
def intOfText? (s : String) : Option Int :=
  let digits? (cs : List Char) : Option Nat :=
    if cs.isEmpty || cs.any (!·.isDigit) then none
    else some (cs.foldl (fun n d ↦ 10 * n + (d.toNat - '0'.toNat)) 0)
  match s.toList with
  | '-' :: cs => (digits? cs).map fun n ↦ -(n : Int)
  | cs => (digits? cs).map fun n ↦ (n : Int)

namespace Constant

def ofDatum? : Datum → Option Constant
  | .null => some .none
  | .bool b => some (.bool b)
  | .map [(.str "int", .str s)] => (intOfText? s).map .int
  | .map [(.str "float", .str s)] => some (.float s)
  | .map [(.str "complex", .str s)] => some (.complex s)
  | .map [(.str "str", .str s)] => some (.str s)
  | .map [(.str "bytes", .str s)] => some (.bytes s)
  | .map [(.str "ellipsis", _)] => some .ellipsis
  | _ => Option.none

def toDatum : Constant → Datum
  | .none => .null
  | .bool b => .bool b
  | .int n => .object [("int", .str (toString n))]
  | .float s => .object [("float", .str s)]
  | .complex s => .object [("complex", .str s)]
  | .str s => .object [("str", .str s)]
  | .bytes s => .object [("bytes", .str s)]
  | .ellipsis => .object [("ellipsis", .bool true)]

end Constant

namespace Place

def numberOf : Datum → Option Int
  | .int n => some n
  | _ => none

def ofDatum : Datum → Place
  | .list [l, c, el, ec] => ⟨numberOf l, numberOf c, numberOf el, numberOf ec⟩
  | _ => {}

def toDatum (p : Place) : Datum :=
  let number (n : Option Int) : Datum := (n.map .int).getD .null
  .list [number p.line, number p.column, number p.endLine, number p.endColumn]

end Place

/-- The value of this field is a constant and not a node. -/
def holdsConstant (cls : NodeClass) (name : String) : Bool :=
  name == "value" && (cls == .plain .constant || cls == .plain .matchSingleton)

/-- The texts of a list that holds nothing else. -/
def namesOf? : List Datum → Option (List String)
  | [.str s] => some [s]
  | .str s :: ds => (namesOf? ds).map (s :: ·)
  | _ => none

mutual
/-- Reads a node. The identities from `next` on are free; what is left of them comes back. -/
def readNode (next : NodeId) : Datum → Option (Node × NodeId)
  | .null => some (.gap, next)
  | .map pairs =>
    match Datum.lookup "_" pairs with
    | some (.str name) =>
      match NodeClass.ofName? name with
      | none => none
      | some cls =>
        match readFields cls (next + 1) pairs with
        | none => none
        | some (fields, rest) =>
          let place := ((Datum.lookup "@" pairs).map Place.ofDatum).getD {}
          some (.mk next cls place (cls.fieldNames.map fun f ↦ (fields.lookup f).getD .none), rest)
    | _ => none
  | _ => none

def readFields (cls : NodeClass) (next : NodeId) : List (Datum × Datum) → Option (List (String × Field) × NodeId)
  | [] => some ([], next)
  | (key, value) :: rest =>
    let name := key.text
    if name == "_" || name == "@" || name == "m" then readFields cls next rest
    else if holdsConstant cls name then
      match Constant.ofDatum? value, readFields cls next rest with
      | some c, some (fs, next) => some ((name, .constant c) :: fs, next)
      | _, _ => none
    else
      match readField next value with
      | none => none
      | some (f, next) =>
        match readFields cls next rest with
        | none => none
        | some (fs, next) => some ((name, f) :: fs, next)

def readField (next : NodeId) : Datum → Option (Field × NodeId)
  | .null => some (.none, next)
  | .str s => some (.text s, next)
  | .int n => some (.number n, next)
  | .list ds =>
    match namesOf? ds with
    | some names => some (.names names, next)
    | none => (readNodes next ds).map fun (ns, next) ↦ (.many ns, next)
  | d => (readNode next d).map fun (n, next) ↦ (.child n, next)

def readNodes (next : NodeId) : List Datum → Option (List Node × NodeId)
  | [] => some ([], next)
  | d :: ds =>
    match readNode next d with
    | none => none
    | some (n, next) => (readNodes next ds).map fun (ns, next) ↦ (n :: ns, next)
end

/-- What is written of a tree besides its classes and fields. -/
structure Writing where
  places : Bool := true
  marked : NodeId → Bool := fun _ ↦ false

mutual
def writeNode (w : Writing) : Node → Datum
  | .gap => .null
  | .mk i cls place fs =>
    .object ([("_", .str cls.name)] ++
      (if w.places && place != {} then [("@", place.toDatum)] else []) ++
      (if w.marked i then [("m", .int 1)] else []) ++
      writeFields w cls.fieldNames fs)

def writeFields (w : Writing) : List String → List Field → List (String × Datum)
  | name :: names, f :: fs => (name, writeField w f) :: writeFields w names fs
  | _, _ => []

def writeField (w : Writing) : Field → Datum
  | .none => .null
  | .text s => .str s
  | .number n => .int n
  | .constant c => c.toDatum
  | .names ss => .strings ss
  | .child n => writeNode w n
  | .many ns => .list (writeNodes w ns)

def writeNodes (w : Writing) : List Node → List Datum
  | [] => []
  | n :: ns => writeNode w n :: writeNodes w ns
end

end Coverage.Syntax
