import Coverage.Datum
import Coverage.OrderedMap
import Coverage.Span

/-!
# The record of a pass

What a pass counts in one file: the entries in the order in which they were met, and the branch groups
their arms belong to. A record looks up keys through an index, which it brings up to date when the sizes
of index and entries differ.
-/

namespace Coverage

/-- Decision points that have arms. -/
inductive Construct where
  | ifChain
  | ternary
  | logical
  | matchCases
  | whileLoop
  | forLoop
  | tryBody
  deriving DecidableEq, Repr

namespace Construct

def all : List Construct := [ifChain, ternary, logical, matchCases, whileLoop, forLoop, tryBody]

def name : Construct → String
  | ifChain => "if"
  | ternary => "ternary"
  | logical => "logical"
  | matchCases => "match"
  | whileLoop => "while"
  | forLoop => "for"
  | tryBody => "try"

def ofName? (name : String) : Option Construct := all.find? (·.name == name)

end Construct

/-- One decision point. -/
structure Group where
  id : Int
  construct : Construct
  arms : Int
  span : Span
  deriving DecidableEq, Repr

/-- The kind of an entry that nobody has checked. -/
inductive AnyKind where
  | known (kind : Kind)
  | unknown (value : Datum)

def AnyKind.ofDatum : Datum → AnyKind
  | .str s =>
    match Kind.ofName? s with
    | some k => known k
    | none => unknown (.str s)
  | d => unknown d

/-- Types of kinds, of which some can be unknown. -/
class Kinded (κ : Type) where
  any : κ → AnyKind
  ofKind : Kind → κ
  any_ofKind : ∀ kind, any (ofKind kind) = .known kind

instance : Kinded Kind := ⟨.known, id, fun _ ↦ rfl⟩

instance : Kinded AnyKind := ⟨id, .known, fun _ ↦ rfl⟩

/-- One counted unit. `κ` is the type of its kind. Branch entries have a group and the position of the
arm in it, function entries a name. -/
structure Entry (κ : Type) where
  key : Key
  kind : κ
  span : Span
  group : Option Int := none
  arm : Option Int := none
  name : Option String := none
  deriving DecidableEq, Repr

def Entry.isOf {κ : Type} [Kinded κ] (e : Entry κ) (kind : Kind) : Bool :=
  match Kinded.any e.kind with
  | .known k => k == kind
  | .unknown _ => false

/-- The record of a pass over one file. `index` maps keys to positions in `entries`; it can lag behind. A pass knows
the kinds of its entries, but entries of any kind can be put into a record. -/
structure Metadata (κ : Type) where
  filename : String
  entries : List (Entry κ) := []
  groups : List Group := []
  index : OrderedMap Key Nat := {}
  deriving DecidableEq, Repr

namespace Metadata

variable {κ : Type}

instance : Inhabited (Metadata κ) := ⟨⟨"", [], [], {}⟩⟩

/-- The index of a list of entries: each key with the position of its last entry. -/
def indexOf (entries : List (Entry κ)) : OrderedMap Key Nat :=
  .ofList (entries.mapIdx fun i e ↦ (e.key, i))

/-- Rebuilds the index if its size tells that it is out of date. -/
def refresh (m : Metadata κ) : Metadata κ :=
  if m.index.size = m.entries.length then m else { m with index := indexOf m.entries }

/-- The entry with a key, through the index as it stands. -/
def find? (m : Metadata κ) (key : Key) : Option (Entry κ) := m.index.get? key >>= (m.entries[·]?)

/-- Looks up a key. The record comes back with its index up to date. -/
def get (m : Metadata κ) (key : Key) : Option (Entry κ) × Metadata κ :=
  let m := m.refresh
  (m.find? key, m)

/-- Appends an entry unless its key is taken; says whether it was appended. -/
def add (m : Metadata κ) (e : Entry κ) : Bool × Metadata κ :=
  match m.get e.key with
  | (some _, m) => (false, m)
  | (none, m) =>
    (true, { m with index := m.index.put e.key m.entries.length, entries := m.entries ++ [e] })

/-- The group that `addGroup` would append: its identifier is the number of groups. -/
def nextGroup (m : Metadata κ) (construct : Construct) (arms : Int) (span : Span) : Group :=
  ⟨m.groups.length, construct, arms, span⟩

/-- Appends a group. A group has at least one arm; `none` refuses one without. -/
def addGroup (m : Metadata κ) (construct : Construct) (arms : Int) (span : Span) : Option (Group × Metadata κ) :=
  if arms < 1 then none
  else
    let g := m.nextGroup construct arms span
    some (g, { m with groups := m.groups ++ [g] })

def keys (m : Metadata κ) : List Key := m.entries.map (·.key)

def entriesOf [Kinded κ] (m : Metadata κ) (kind : Kind) : List (Entry κ) :=
  m.entries.filter (·.isOf kind)

/-- The first group with an identifier. -/
def group? (m : Metadata κ) (id : Int) : Option Group := m.groups.find? (·.id == id)

/-- Two records agree if they hold the same file name, entries and groups and their indexes are equal as
maps. -/
def agrees (m n : Metadata Kind) : Bool :=
  m.filename == n.filename && m.entries == n.entries && m.groups == n.groups &&
    m.index.size == n.index.size && m.index.pairs.all fun p ↦ n.index.get? p.1 == some p.2

end Metadata

end Coverage
