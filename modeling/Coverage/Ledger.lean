import Coverage.OrderedMap
import Coverage.Span
import Coverage.Text.Quoted

/-!
# Counts

A ledger holds how often each key of each file was counted. Files and keys stand in the order in which
they were first counted.
-/

namespace Coverage

/-- The counts of one file. -/
abbrev Counts := OrderedMap Key Int

/-- The counts of all files. -/
structure Ledger where
  files : OrderedMap String Counts := {}
  deriving DecidableEq, Repr

namespace Ledger

instance : Inhabited Ledger := ⟨{}⟩

/-- The counts of a file; none if it was never counted. -/
def forFile (l : Ledger) (file : String) : Counts := (l.files.get? file).getD {}

def count (l : Ledger) (file : String) (key : Key) : Int := ((l.forFile file).get? key).getD 0

def addCount (c : Counts) (key : Key) (n : Int) : Counts := c.put key ((c.get? key).getD 0 + n)

/-- Counts a key once. -/
def hit (l : Ledger) (file : String) (key : Key) : Ledger :=
  ⟨l.files.put file (addCount (l.forFile file) key 1)⟩

/-- Counts a key a number of times. -/
def hits (l : Ledger) (file : String) (key : Key) : Nat → Ledger
  | 0 => l
  | n + 1 => (l.hit file key).hits file key n

/-- How a guarded block was left. -/
inductive Exit where
  | normal
  | raised
  deriving DecidableEq, Repr

/-- The key that a guard counts. -/
def Exit.key (ok error : Key) : Exit → Key
  | normal => ok
  | raised => error

/-- Counts how a guarded block was left. -/
def leave (l : Ledger) (file : String) (ok error : Key) (exit : Exit) : Ledger := l.hit file (exit.key ok error)

def contains (l : Ledger) (file : String) : Bool := l.files.contains file

def fileNames (l : Ledger) : List String := l.files.keys.mergeSort fun a b ↦ !decide (b < a)

def mergeCounts (c d : Counts) : Counts := d.pairs.foldl (fun c p ↦ addCount c p.1 p.2) c

/-- The sums of the counts of two ledgers. -/
def merge (l m : Ledger) : Ledger :=
  ⟨m.files.pairs.foldl (fun files p ↦ files.put p.1 (mergeCounts ((files.get? p.1).getD {}) p.2)) l.files⟩

/-- Drops the counts of one file, or of all files. -/
def reset (l : Ledger) : Option String → Ledger
  | none => {}
  | some file => ⟨l.files.erase file⟩

/-- A short description, by the files. -/
def text (l : Ledger) : String :=
  "CoverageStore(files=[" ++ ", ".intercalate (l.fileNames.map Text.quoted) ++ "])"

end Ledger

end Coverage
