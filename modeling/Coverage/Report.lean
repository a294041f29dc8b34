import Coverage.Datum
import Coverage.Ledger
import Coverage.Metadata

/-!
# Reports

The counts of one file against its record: one line for each entry, with its count, in the order of the
record and sorted by kind. Keys without a count were never executed.
-/

namespace Coverage

/-- The count of one unit. -/
structure Record where
  key : Key
  span : Span
  count : Int
  deriving DecidableEq, Repr

/-- A unit is covered if it was executed. -/
def Record.covered (r : Record) : Bool := r.count > 0

/-- The count of one arm of a decision point. -/
structure BranchRecord extends Record where
  group : Int := 0
  arm : Int := 0
  construct : Option Construct := none
  deriving DecidableEq, Repr

/-- The count of one function. -/
structure FunctionRecord extends Record where
  name : String
  deriving DecidableEq, Repr

/-- The coverage of one file. -/
structure Report where
  filename : String
  statements : List Record := []
  branches : List BranchRecord := []
  functions : List FunctionRecord := []
  deriving DecidableEq, Repr

/-- What makes a record useless for a report. -/
inductive Malformed where
  | noGroup (key : Key)
  | unknownGroup (key : Key) (group : Int)
  | unknownKind (key : Key) (kind : Datum)

namespace Malformed

def message : Malformed → String
  | noGroup key => "Branch entry " ++ key ++ " has no group"
  | unknownGroup key group => "Branch entry " ++ key ++ " refers to unknown group " ++ toString group
  | unknownKind _ kind => "Unknown entry kind: " ++ kind.literal

/-- What the message is about. -/
def details : Malformed → Datum
  | noGroup key => .object [("key", .str key)]
  | unknownGroup key group => .object [("key", .str key), ("group_id", .int group)]
  | unknownKind key kind => .object [("key", .str key), ("kind", .str kind.text)]

end Malformed

def lastGroup? (groups : List Group) (id : Int) : Option Group := groups.reverse.find? (·.id == id)

namespace Report

def branchRecord {κ : Type} (groups : List Group) (e : Entry κ) (count : Int) : Except Malformed BranchRecord :=
  match e.group, e.arm with
  | some group, some arm =>
    match lastGroup? groups group with
    | some g => .ok { key := e.key, span := e.span, count, group, arm, construct := some g.construct }
    | none => .error (.unknownGroup e.key group)
  | _, _ => .error (.noGroup e.key)

/-- The name of a function; a name that is empty or missing is unknown. -/
def functionName (name : Option String) : String :=
  match name with
  | some n => if n == "" then "<unknown>" else n
  | none => "<unknown>"

def addEntry (raw : Counts) (groups : List Group) (r : Report) (e : Entry AnyKind) : Except Malformed Report :=
  let count := (raw.get? e.key).getD 0
  match e.kind with
  | .known .statement => .ok { r with statements := r.statements ++ [⟨e.key, e.span, count⟩] }
  | .known .branch => do
    let b ← branchRecord groups e count
    return { r with branches := r.branches ++ [b] }
  | .known .function =>
    .ok { r with
      functions := r.functions ++ [{ key := e.key, span := e.span, count, name := functionName e.name }] }
  | .unknown kind => .error (.unknownKind e.key kind)

/-- The report on entries whose kinds nobody has checked. -/
def ofEntries (raw : Counts) (filename : String) (groups : List Group) (entries : List (Entry AnyKind)) :
    Except Malformed Report :=
  entries.foldlM (addEntry raw groups) { filename }

end Report

section Records

variable {κ : Type} [Kinded κ]

def Entry.unchecked (e : Entry κ) : Entry AnyKind :=
  { key := e.key, kind := Kinded.any e.kind, span := e.span, group := e.group, arm := e.arm, name := e.name }

/-- The report on the counts of a file. -/
def analyze (raw : Counts) (m : Metadata κ) : Except Malformed Report :=
  Report.ofEntries raw m.filename m.groups (m.entries.map Entry.unchecked)

/-- The report on the counts that a ledger has for the file of a record. -/
def analyzeLedger (l : Ledger) (m : Metadata κ) : Except Malformed Report := analyze (l.forFile m.filename) m

end Records

/-! ## Totals -/

/-- How many units of a kind there are, and how many are covered. -/
structure Total where
  kind : Kind
  total : Int
  covered : Int
  deriving DecidableEq, Repr

/-- The share of covered units in percent, as a binary number: the quotient is rounded, then the product
with a hundred. Nothing to cover is fully covered; a quotient beyond all numbers has no percentage. -/
def Total.percentage? (t : Total) : Option Binary64 :=
  if t.total = 0 then some (.ofInt 100)
  else (Binary64.divInts? t.covered t.total).map (·.mulNat 100)

namespace Report

def records (r : Report) : Kind → List Record
  | .statement => r.statements
  | .branch => r.branches.map (·.toRecord)
  | .function => r.functions.map (·.toRecord)

/-- All lines: statements first, then branches, then functions. -/
def allRecords (r : Report) : List Record := Kind.all.flatMap r.records

def total (r : Report) (kind : Kind) : Total :=
  ⟨kind, (r.records kind).length, ((r.records kind).filter (·.covered)).length⟩

/-- Lines that were never executed. -/
def uncovered (r : Report) : List Record := r.allRecords.filter fun x ↦ !x.covered

def hasGaps (r : Report) : Bool := r.allRecords.any fun x ↦ !x.covered

def addArm (groups : OrderedMap Int (List BranchRecord)) (b : BranchRecord) : OrderedMap Int (List BranchRecord) :=
  groups.put b.group ((groups.get? b.group).getD [] ++ [b])

/-- The arms of each group, in the order of their positions; groups in the order in which they are met. -/
def branchGroups (r : Report) : List (Int × List BranchRecord) :=
  (r.branches.foldl addArm {}).pairs.map fun p ↦ (p.1, p.2.mergeSort fun a b ↦ decide (a.arm ≤ b.arm))

end Report

end Coverage
