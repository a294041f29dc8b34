import Coverage.Program.Value
import Coverage.Syntax.Exchange

/-!
# Values as data

Constants are written as in trees, lists and tuples with their items, and of functions, exceptions and
other objects what tells them apart.
-/

namespace Coverage.Program

open Syntax

namespace Heap

/-- A value as data; the fuel bounds how deep lists are nested. -/
def describe (h : Heap) : Nat → Value → Datum
  | 0, _ => .null
  | fuel + 1, v =>
    match v with
    | .const c => c.toConstant.toDatum
    | .object r =>
      match h[r]? with
      | some (.list items) => .object [("list", .list (items.toList.map (h.describe fuel)))]
      | some (.tuple items) => .object [("tuple", .list (items.toList.map (h.describe fuel)))]
      | some (.exception c _) => .object [("exception", .str c.name), ("message", .str (h.message v))]
      | some (.function f) => .object [("function", .str f.name)]
      | none => .null
    | .ledger _ => .object [("store", .bool true)]
    | v => .object [("object", .str (h.typeName v))]

def toDatum (h : Heap) (v : Value) : Datum := h.describe (h.size + 1) v

end Heap

/-- Variables by name, without the one through which every program finds the functions of the language. -/
def Namespace.toDatum (h : Heap) (ns : Namespace) : Datum :=
  .list (((ns.pairs.filter (·.1 != builtinsName)).mergeSort fun p q ↦ !decide (q.1 < p.1)).map fun p ↦
    .list [.str p.1, h.toDatum p.2])

def readItems (read : Heap → Datum → Value × Heap) : Heap → List Datum → List Value × Heap
  | h, [] => ([], h)
  | h, d :: ds =>
    let (v, h) := read h d
    let (vs, h) := readItems read h ds
    (v :: vs, h)

/-- A value that is put into memory; the fuel bounds how deep lists are nested. -/
def readValue : Nat → Heap → Datum → Value × Heap
  | 0, h, _ => (.none, h)
  | fuel + 1, h, d =>
    match d with
    | .map [(.str "list", .list ds)] =>
      let (vs, h) := readItems (readValue fuel) h ds
      (.object h.size, h.push (.list vs.toArray))
    | .map [(.str "tuple", .list ds)] =>
      let (vs, h) := readItems (readValue fuel) h ds
      (.object h.size, h.push (.tuple vs.toArray))
    | d => (.const (((Constant.ofDatum? d).bind Literal.ofConstant?).getD .none), h)

end Coverage.Program
