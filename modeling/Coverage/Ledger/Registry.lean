import Coverage.Ledger

/-!
# Public ledgers

A ledger that several parts of a program count into is known by its number. A registry gives ledgers names
under which every part can find them; each name stands for one ledger at most.
-/

namespace Coverage

/-- The number of a ledger. -/
abbrev LedgerId := Nat

/-- The name by which injected code reaches the counters, unless another is chosen. -/
def usualName : String := "__countcov__"

/-- The ledgers that have names. -/
structure Registry where
  names : OrderedMap String LedgerId := {}
  deriving DecidableEq, Repr

namespace Registry

instance : Inhabited Registry := ⟨{}⟩

/-- The ledger of a name. -/
def find? (r : Registry) (name : String) : Option LedgerId := r.names.get? name

/-- Gives a name to a ledger, which another one may lose. -/
def install (r : Registry) (name : String) (l : LedgerId) : Registry := ⟨r.names.put name l⟩

/-- Takes a name back. -/
def uninstall (r : Registry) (name : String) : Option LedgerId × Registry :=
  (r.find? name, ⟨r.names.erase name⟩)

end Registry

end Coverage
