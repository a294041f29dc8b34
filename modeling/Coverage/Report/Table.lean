import Coverage.Number.Decimal
import Coverage.Report
import Coverage.Text.Width

/-!
# Reports as tables

A report for a terminal: the totals of the three kinds, and below them the lines that were never executed,
or all lines.
-/

namespace Coverage

/-- A column of a table. -/
structure Column where
  header : String
  right : Bool := false

namespace Table

def cell (width : Nat) (right : Bool) (s : String) : String :=
  let fill := "".pushn ' ' (width - Text.width s)
  " " ++ (if right then fill ++ s else s ++ fill) ++ " "

def widths (columns : List Column) (rows : List (List String)) : List Nat :=
  columns.mapIdx fun i c ↦ rows.foldl (fun w row ↦ max w (Text.width ((row[i]?).getD ""))) (Text.width c.header)

/-- A line of a frame. -/
def rule (left middle right : String) (fill : Char) (ws : List Nat) : String :=
  left ++ middle.intercalate (ws.map fun w ↦ "".pushn fill (w + 2)) ++ right ++ "\n"

def line (bar : String) (columns : List Column) (ws : List Nat) (cells : List String) : String :=
  bar ++ String.join ((columns.zip (ws.zip cells)).map fun (c, w, s) ↦ cell w c.right s ++ bar) ++ "\n"

def render (columns : List Column) (rows : List (List String)) : String :=
  let ws := widths columns rows
  rule "┏" "┳" "┓" '━' ws ++ line "┃" columns ws (columns.map (·.header)) ++ rule "┡" "╇" "┩" '━' ws ++
    String.join (rows.map (line "│" columns ws)) ++ rule "└" "┴" "┘" '─' ws

end Table

/-- A percentage with one place. -/
def percentText (p : Binary64) : String := Decimal.fixed 1 p ++ "%"

namespace Report

def totalColumns : List Column := [⟨"Kind", false⟩, ⟨"Covered", true⟩, ⟨"Total", true⟩, ⟨"Percent", true⟩]

def totalRow (t : Total) : List String :=
  [t.kind.name, toString t.covered, toString t.total, percentText (t.percentage?.getD (.ofInt 0))]

def lineColumns : List Column := [⟨"Location", false⟩, ⟨"Entry", false⟩, ⟨"Count", true⟩]

def row (label : String) (r : Record) : List String := [r.span.text, label, toString r.count]

def branchLabel (b : BranchRecord) : String :=
  "branch " ++ toString b.group ++ "." ++ toString b.arm ++ " (" ++
    (b.construct.map (·.name)).getD "?" ++ ")"

/-- The lines of a report, each with whether it is covered. -/
def rows (r : Report) : List (Bool × List String) :=
  r.statements.map (fun x ↦ (x.covered, row "statement" x)) ++
    r.branches.map (fun b ↦ (b.covered, row (branchLabel b) b.toRecord)) ++
    r.functions.map fun f ↦ (f.covered, row ("function " ++ f.name) f.toRecord)

/-- The report as it is shown; with `all`, covered lines are listed too. -/
def display (r : Report) (all : Bool) : String :=
  let listed := (r.rows.filter fun x ↦ all || !x.1).map (·.2)
  "\nCoverage: " ++ r.filename ++ "\n" ++ Table.render totalColumns (Kind.all.map fun k ↦ totalRow (r.total k)) ++
    if listed.isEmpty then "✓ Everything was executed\n" else Table.render lineColumns listed

end Report

end Coverage
