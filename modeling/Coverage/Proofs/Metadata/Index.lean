import Mathlib.Data.List.Induction
import Coverage.Metadata
import Coverage.Proofs.OrderedMap

/-!
# The index of a record

A record rebuilds its index only when the sizes of index and entries differ. The index is always that of a first part of
the entries. If this part is not all of them, it has fewer keys than there are entries, so equal sizes tell that the
index is up to date, also where keys are repeated and entries were added past the index. What a record answers then
depends on its entries alone: a look-up finds the last entry with a key.
-/

namespace Coverage.Metadata

variable {κ : Type}

/-- What can be seen of a record: everything but its index. -/
def visible (m : Metadata κ) : Metadata κ := { m with index := {} }

/-- The record with its index up to date. -/
def indexed (m : Metadata κ) : Metadata κ := { m with index := indexOf m.entries }

def latest? (entries : List (Entry κ)) (key : Key) : Option (Entry κ) :=
  entries.reverse.find? (·.key == key)

/-- The index is that of a first part of the entries. -/
def InStep (m : Metadata κ) : Prop := ∃ done, done <+: m.entries ∧ m.index = indexOf done

/-! ## Indexes of lists -/

section Lists

variable (entries : List (Entry κ)) (e : Entry κ) (key : Key)

theorem indexOf_concat : indexOf (entries ++ [e]) = (indexOf entries).put e.key entries.length := by
  simp [indexOf, OrderedMap.ofList, List.mapIdx_concat]

/-- An index has at most one key for each entry. -/
theorem size_indexOf_le : (indexOf entries).size ≤ entries.length := by
  induction entries using List.reverseRecOn with
  | nil => exact Nat.le_refl 0
  | append_singleton entries e ih =>
    rw [indexOf_concat, OrderedMap.size_put, List.length_append, List.length_singleton]
    split <;> omega

theorem latest?_concat :
    latest? (entries ++ [e]) key = if key = e.key then some e else latest? entries key := by
  rw [latest?, List.reverse_concat, List.find?_cons]
  by_cases h : key = e.key
  · simp [h]
  · have hother : (e.key == key) = false := by simpa using Ne.symm h
    simp [h, hother, latest?]

theorem lt_of_get?_indexOf {i : Nat} (h : (indexOf entries).get? key = some i) : i < entries.length := by
  induction entries using List.reverseRecOn with
  | nil => cases h
  | append_singleton entries e ih =>
    rw [indexOf_concat, OrderedMap.get?_put] at h
    rw [List.length_append, List.length_singleton]
    split at h
    next => exact Option.some.inj h ▸ Nat.lt_succ_self _
    next => exact Nat.lt_succ_of_lt (ih h)

/-- An index leads from each key to its last entry. -/
theorem get?_indexOf_bind : ((indexOf entries).get? key).bind (entries[·]?) = latest? entries key := by
  induction entries using List.reverseRecOn with
  | nil => rfl
  | append_singleton entries e ih =>
    rw [indexOf_concat, OrderedMap.get?_put, latest?_concat]
    by_cases h : key = e.key
    · simp [h]
    · rw [if_neg (by simpa using h), if_neg h, ← ih]
      -- Positions in the old entries are positions in the new ones.
      cases hi : (indexOf entries).get? key with
      | none => rfl
      | some i => exact List.getElem?_append_left (lt_of_get?_indexOf entries key hi)

variable {entries e key}

theorem latest?_eq_none_iff : latest? entries key = none ↔ key ∉ entries.map (·.key) := by
  simp [latest?]

/-- The last entry with a key has no other one with it behind it. -/
theorem latest?_eq_some_iff : latest? entries key = some e ↔
    e.key = key ∧ ∃ before after, entries = before ++ e :: after ∧ key ∉ after.map (·.key) := by
  rw [latest?, List.find?_eq_some_iff_append, beq_iff_eq]
  refine and_congr_right fun _ ↦ ⟨?_, ?_⟩
  · rintro ⟨after, before, heq, hafter⟩
    refine ⟨before.reverse, after.reverse, ?_, ?_⟩
    · rw [← List.reverse_reverse entries, heq]
      simp
    · simpa using hafter
  · rintro ⟨before, after, rfl, hafter⟩
    exact ⟨after.reverse, before.reverse, by simp, by simpa using hafter⟩

end Lists

/-! ## Records in step -/

section Records

variable {m n : Metadata κ} {e : Entry κ} {key : Key}

@[simp]
theorem indexed_indexed (m : Metadata κ) : m.indexed.indexed = m.indexed := rfl

@[simp]
theorem visible_indexed (m : Metadata κ) : m.indexed.visible = m.visible := rfl

/-- A record without an index is in step. -/
theorem inStep_visible (m : Metadata κ) : m.visible.InStep := ⟨[], List.nil_prefix, rfl⟩

theorem inStep_indexed (m : Metadata κ) : m.indexed.InStep := ⟨m.entries, List.prefix_rfl, rfl⟩

/-- Equal sizes tell that the index is up to date. -/
theorem InStep.refresh_eq (h : m.InStep) : m.refresh = m.indexed := by
  unfold refresh
  split
  next hsize =>
    obtain ⟨done, hdone, hindex⟩ := h
    have hle : m.entries.length ≤ done.length := by
      rw [← hsize, hindex]
      exact size_indexOf_le done
    obtain rfl : done = m.entries := hdone.eq_of_length_le hle
    rw [indexed, ← hindex]
  next => rfl

theorem InStep.get_eq (h : m.InStep) (key : Key) : m.get key = (latest? m.entries key, m.indexed) := by
  have hfind : m.indexed.find? key = latest? m.entries key := get?_indexOf_bind m.entries key
  rw [get, h.refresh_eq, hfind]

theorem InStep.add_of_mem (h : m.InStep) (hkey : e.key ∈ m.keys) : m.add e = (false, m.indexed) := by
  obtain ⟨e', he'⟩ := Option.ne_none_iff_exists'.1 (mt latest?_eq_none_iff.1 (not_not_intro hkey))
  rw [add, h.get_eq, he']

/-- An entry with a free key comes last. -/
theorem InStep.add_of_not_mem (h : m.InStep) (hkey : e.key ∉ m.keys) :
    m.add e = (true, { m with entries := m.entries ++ [e] : Metadata κ }.indexed) := by
  rw [add, h.get_eq, latest?_eq_none_iff.2 hkey]
  simp only [indexed, indexOf_concat]

end Records

end Coverage.Metadata
