import Coverage.Metadata.Data
import Coverage.Report

/-!
# Reports as data
-/

namespace Coverage

/-- Percentages are given with two places. -/
def percentPlaces : Nat := 2

/-- A total as data. `number` writes the percentage. -/
def Total.toDatum? (number : Binary64 → Datum) (t : Total) : Option Datum :=
  t.percentage?.map fun p ↦
    .object [("kind", .str t.kind.name), ("total", .int t.total), ("covered", .int t.covered),
      ("coverage_percentage", number (Decimal.round percentPlaces p))]

def Record.fields (r : Record) : List (String × Datum) :=
  [("key", .str r.key), ("location", r.span.toDatum), ("count", .int r.count)]

def BranchRecord.toDatum (b : BranchRecord) : Datum :=
  .object (b.toRecord.fields ++
    [("group_id", .int b.group), ("branch_index", .int b.arm),
      ("construct", (b.construct.map fun c ↦ .str c.name).getD .null)])

def FunctionRecord.toDatum (f : FunctionRecord) : Datum :=
  .object (f.toRecord.fields ++ [("name", .str f.name)])

def Report.toDatum (number : Binary64 → Datum) (r : Report) : Datum :=
  .object [("filename", .str r.filename), ("has_gaps", .bool r.hasGaps),
    ("summary", .object (Kind.all.map fun k ↦ (k.name, ((r.total k).toDatum? number).getD .null))),
    ("statements", .list (r.statements.map fun x ↦ .object x.fields)),
    ("branches", .list (r.branches.map BranchRecord.toDatum)),
    ("functions", .list (r.functions.map FunctionRecord.toDatum))]

end Coverage
