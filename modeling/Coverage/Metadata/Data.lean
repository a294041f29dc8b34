import Coverage.Datum.Validation
import Coverage.Metadata

/-!
# Records as data

A record of a pass is written as a map of its file name, entries and groups, and read back by the same
schema. The index is not written.
-/

namespace Coverage

open Reading (field fieldOr both)

def intOrNull (n : Option Int) : Datum := (n.map .int).getD .null

def Span.toDatum (s : Span) : Datum :=
  .object [("start_line", .int s.startLine), ("start_column", .int s.startColumn),
    ("end_line", .int s.endLine), ("end_column", .int s.endColumn)]

def Group.toDatum (g : Group) : Datum :=
  .object [("group_id", .int g.id), ("construct_type", .str g.construct.name), ("arms", .int g.arms),
    ("location", g.span.toDatum)]

def Entry.toDatum (e : Entry Kind) : Datum :=
  .object [("key", .str e.key), ("kind", .str e.kind.name), ("location", e.span.toDatum),
    ("group_id", intOrNull e.group), ("branch_index", intOrNull e.arm),
    ("name", (e.name.map .str).getD .null)]

def Metadata.toDatum (m : Metadata Kind) : Datum :=
  .object [("filename", .str m.filename), ("entries", .list (m.entries.map Entry.toDatum)),
    ("groups", .list (m.groups.map Group.toDatum))]

def Span.read : Datum → Reading Span :=
  Reading.model fun pairs ↦
    (both (field "start_line" Reading.int pairs)
      (both (field "start_column" Reading.int pairs)
        (both (field "end_line" Reading.int pairs) (field "end_column" Reading.int pairs)))).map
      fun (l, c, el, ec) ↦ ⟨l, c, el, ec⟩

/-- A number of arms, at least one. -/
def Group.readArms (d : Datum) : Reading Int :=
  match Reading.int d with
  | .ok n => if n < 1 then Reading.fail .greaterThanEqual else .ok n
  | .error issues => .error issues

def Group.read : Datum → Reading Group :=
  Reading.model fun pairs ↦
    (both (field "group_id" Reading.int pairs)
      (both (field "construct_type" (Reading.named Construct.ofName?) pairs)
        (both (field "arms" Group.readArms pairs) (field "location" Span.read pairs)))).map
      fun (id, construct, arms, span) ↦ ⟨id, construct, arms, span⟩

/-- Reads an entry whose kind is read by `readKind`. -/
def Entry.readWith {κ : Type} (readKind : Datum → Reading κ) : Datum → Reading (Entry κ) :=
  Reading.model fun pairs ↦
    (both (field "key" Reading.str pairs)
      (both (field "kind" readKind pairs)
        (both (field "location" Span.read pairs)
          (both (fieldOr "group_id" none (Reading.nullable Reading.int) pairs)
            (both (fieldOr "branch_index" none (Reading.nullable Reading.int) pairs)
              (fieldOr "name" none (Reading.nullable Reading.str) pairs)))))).map
      fun (key, kind, span, group, arm, name) ↦ ⟨key, kind, span, group, arm, name⟩

def Entry.read : Datum → Reading (Entry Kind) := Entry.readWith (Reading.named Kind.ofName?)

/-- Reads a record; its index starts empty. -/
def Metadata.read : Datum → Reading (Metadata Kind) :=
  Reading.model fun pairs ↦
    (both (field "filename" Reading.str pairs)
      (both (fieldOr "entries" [] (Reading.list Entry.read) pairs)
        (fieldOr "groups" [] (Reading.list Group.read) pairs))).map
      fun (filename, entries, groups) ↦ { filename, entries, groups }

end Coverage
