import Mathlib.Data.List.Nodup
import Coverage.Proofs.Metadata.Index

/-!
# Records with an index in step

A record that starts empty and grows by `add` and `addGroup` keeps its index in step with its entries. Its
keys are then told apart, an entry is refused exactly if its key is taken, and the groups of entries are
among its groups.
-/

namespace Coverage.Metadata

/-- The index is up to date, keys are not used twice, and groups are numbered from zero. -/
structure Tidy (m : Metadata Kind) : Prop where
  indexed : m.index = indexOf m.entries
  nodup : m.keys.Nodup
  grouped : ∀ e ∈ m.entries, ∀ id, e.group = some id → id < m.groups.length
  numbered : ∀ g ∈ m.groups, g.id < m.groups.length

theorem tidy_empty (filename : String) : Tidy { filename } where
  indexed := rfl
  nodup := by simp [keys]
  grouped := by simp
  numbered := by simp

namespace Tidy

variable {m : Metadata Kind} {e : Entry Kind}

theorem indexed_eq (h : m.Tidy) : m.indexed = m := by
  rw [Metadata.indexed, ← h.indexed]

theorem inStep (h : m.Tidy) : m.InStep := h.indexed_eq ▸ inStep_indexed m

/-- An entry is refused if its key is taken. -/
theorem add_of_mem (h : m.Tidy) (hkey : e.key ∈ m.keys) : m.add e = (false, m) := by
  rw [h.inStep.add_of_mem hkey, h.indexed_eq]

theorem add_of_not_mem (h : m.Tidy) (hkey : e.key ∉ m.keys) :
    m.add e = (true, { m with index := m.index.put e.key m.entries.length, entries := m.entries ++ [e] }) := by
  rw [h.inStep.add_of_not_mem hkey, Metadata.indexed, indexOf_concat, ← h.indexed]

/-- An entry whose key is free is appended. -/
theorem add (h : m.Tidy) (hkey : e.key ∉ m.keys) (hgroup : ∀ id, e.group = some id → id < m.groups.length) :
    (m.add e).2.Tidy := by
  rw [h.inStep.add_of_not_mem hkey]
  constructor
  case indexed => rfl
  case nodup =>
    change ((m.entries ++ [e]).map (·.key)).Nodup
    rw [List.map_append, List.map_singleton, ← List.concat_eq_append]
    exact List.Nodup.concat hkey h.nodup
  case grouped =>
    intro e' he' id hid
    rcases List.mem_append.1 he' with he' | he'
    · exact h.grouped e' he' id hid
    · obtain rfl := List.mem_singleton.1 he'
      exact hgroup id hid
  case numbered => exact h.numbered

/-- A group gets a new number. -/
theorem addGroup (h : m.Tidy) (construct : Construct) (arms : Int) (span : Span) :
    { m with groups := m.groups ++ [m.nextGroup construct arms span] : Metadata Kind }.Tidy where
  indexed := h.indexed
  nodup := h.nodup
  grouped e he id hid := by
    have := h.grouped e he id hid
    simp only [List.length_append, List.length_singleton]
    omega
  numbered g hg := by
    simp only [List.length_append, List.length_singleton]
    rcases List.mem_append.1 hg with hg | hg
    · have := h.numbered g hg
      omega
    · obtain rfl := List.mem_singleton.1 hg
      simp only [nextGroup]
      omega

end Tidy

/-- The other arm of the entry's `try` has no entry. -/
def Lone (m : Metadata Kind) (e : Entry Kind) : Prop :=
  ∃ g ∈ m.groups, g.construct = .tryBody ∧ g.arms = 2 ∧ e.group = some g.id ∧
    ∀ e' ∈ m.entries, e'.group = some g.id → e' = e

end Coverage.Metadata
