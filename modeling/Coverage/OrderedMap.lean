/-!
# Maps that keep the order of insertion

A finite map as a list of pairs without repeated keys. A new key goes to the end; a known key keeps its
position when its value changes.
-/

namespace Coverage

/-- A finite map with its keys in the order in which they were first put. -/
structure OrderedMap (κ β : Type) where
  pairs : List (κ × β) := []
  nodup : (pairs.map (·.1)).Nodup := by exact List.nodup_nil
  deriving DecidableEq, Repr

namespace OrderedMap

variable {κ β : Type} [BEq κ]

instance : Inhabited (OrderedMap κ β) := ⟨{}⟩

def get? (m : OrderedMap κ β) (k : κ) : Option β := m.pairs.lookup k

def contains (m : OrderedMap κ β) (k : κ) : Bool := (m.get? k).isSome

def keys (m : OrderedMap κ β) : List κ := m.pairs.map (·.1)

omit [BEq κ] in
theorem nodup_keys (m : OrderedMap κ β) : m.keys.Nodup := m.nodup

/-- Replaces the value of the first pair with this key, or adds a pair at the end. -/
def putPair (k : κ) (v : β) : List (κ × β) → List (κ × β)
  | [] => [(k, v)]
  | (k', v') :: rest => if k == k' then (k', v) :: rest else (k', v') :: putPair k v rest

def erase (m : OrderedMap κ β) (k : κ) : OrderedMap κ β where
  pairs := m.pairs.filter fun p ↦ !(p.1 == k)
  nodup := m.nodup.sublist (List.filter_sublist.map _)

def size (m : OrderedMap κ β) : Nat := m.pairs.length

variable [LawfulBEq κ]

theorem map_fst_putPair (k : κ) (v : β) (pairs : List (κ × β)) :
    (putPair k v pairs).map (·.1) = if k ∈ pairs.map (·.1) then pairs.map (·.1) else pairs.map (·.1) ++ [k] := by
  induction pairs with
  | nil => rfl
  | cons pair rest ih =>
    obtain ⟨k₀, v₀⟩ := pair
    by_cases hk : k = k₀
    · simp [putPair, hk]
    · have hput : putPair k v ((k₀, v₀) :: rest) = (k₀, v₀) :: putPair k v rest := by simp [putPair, hk]
      rw [hput, List.map_cons, ih, List.map_cons]
      by_cases hmem : k ∈ rest.map (·.1) <;> simp [hmem, hk]

/-- Putting repeats no key. -/
theorem nodup_putPair {pairs : List (κ × β)} (h : (pairs.map (·.1)).Nodup) (k : κ) (v : β) :
    ((putPair k v pairs).map (·.1)).Nodup := by
  rw [map_fst_putPair]
  split
  next => exact h
  next hnew =>
    refine List.nodup_append.2 ⟨h, by simp, fun a ha b hb heq ↦ hnew ?_⟩
    rw [← List.mem_singleton.1 hb, ← heq]
    exact ha

def put (m : OrderedMap κ β) (k : κ) (v : β) : OrderedMap κ β := ⟨putPair k v m.pairs, nodup_putPair m.nodup k v⟩

/-- Later pairs replace earlier ones with the same key. -/
def ofList (pairs : List (κ × β)) : OrderedMap κ β := pairs.foldl (fun m p ↦ m.put p.1 p.2) {}

end OrderedMap

end Coverage
