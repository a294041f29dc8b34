import Coverage.OrderedMap

/-!
# Looking up in ordered maps

What `put` and `erase` do to the value of every key, and to the number of keys. No key is repeated, so each pair of a
map can be handled on its own.
-/

namespace Coverage.OrderedMap

variable {κ β : Type} [BEq κ] [LawfulBEq κ]

omit [LawfulBEq κ] in
@[simp]
theorem get?_empty (k : κ) : ({} : OrderedMap κ β).get? k = none := rfl

/-- Looking up a key after a pair was put. -/
theorem lookup_putPair (k k' : κ) (v : β) (pairs : List (κ × β)) :
    (putPair k v pairs).lookup k' = if k' == k then some v else pairs.lookup k' := by
  induction pairs with
  | nil => cases h : k' == k <;> simp [putPair, List.lookup_cons, h]
  | cons pair rest ih =>
    obtain ⟨k₀, v₀⟩ := pair
    by_cases hk : k = k₀
    · subst hk
      cases h : k' == k <;> simp [putPair, List.lookup_cons, h]
    · have hput : putPair k v ((k₀, v₀) :: rest) = (k₀, v₀) :: putPair k v rest := by simp [putPair, hk]
      rw [hput, List.lookup_cons, List.lookup_cons, ih]
      -- The pair in front has another key than the one that is put.
      cases h : k' == k₀ with
      | false => rfl
      | true =>
        obtain rfl := beq_iff_eq.1 h
        simp [Ne.symm hk]

theorem get?_put (m : OrderedMap κ β) (k k' : κ) (v : β) :
    (m.put k v).get? k' = if k' == k then some v else m.get? k' :=
  lookup_putPair k k' v m.pairs

@[simp]
theorem get?_put_self (m : OrderedMap κ β) (k : κ) (v : β) : (m.put k v).get? k = some v := by
  rw [get?_put, if_pos BEq.rfl]

theorem get?_put_of_ne (m : OrderedMap κ β) {k k' : κ} (v : β) (h : k' ≠ k) : (m.put k v).get? k' = m.get? k' := by
  rw [get?_put, if_neg (by simpa using h)]

/-- Looking up a key after one was dropped. -/
theorem lookup_filter (k k' : κ) (pairs : List (κ × β)) :
    (pairs.filter fun p ↦ !(p.1 == k)).lookup k' = if k' == k then none else pairs.lookup k' := by
  induction pairs with
  | nil => simp
  | cons pair rest ih =>
    obtain ⟨k₀, v₀⟩ := pair
    by_cases hk : k₀ = k
    · subst hk
      rw [List.filter_cons_of_neg (by simp), ih, List.lookup_cons]
      cases k' == k₀ <;> rfl
    · rw [List.filter_cons_of_pos (by simpa using hk), List.lookup_cons, List.lookup_cons, ih]
      cases h : k' == k₀ with
      | false => rfl
      | true =>
        obtain rfl := beq_iff_eq.1 h
        simp [hk]

theorem get?_erase (m : OrderedMap κ β) (k k' : κ) :
    (m.erase k).get? k' = if k' == k then none else m.get? k' :=
  lookup_filter k k' m.pairs

theorem get?_erase_of_ne (m : OrderedMap κ β) {k k' : κ} (h : k' ≠ k) : (m.erase k).get? k' = m.get? k' := by
  rw [get?_erase, if_neg (by simpa using h)]

/-! ## Keys -/

theorem mem_keys_iff {m : OrderedMap κ β} {k : κ} : k ∈ m.keys ↔ m.contains k = true := by
  unfold keys contains get?
  simp [List.mem_map, Prod.exists]

theorem contains_put (m : OrderedMap κ β) (k k' : κ) (v : β) :
    (m.put k v).contains k' = (k' == k || m.contains k') := by
  rw [contains, get?_put]
  cases h : k' == k <;> simp [contains]

theorem size_put (m : OrderedMap κ β) (k : κ) (v : β) :
    (m.put k v).size = if m.contains k then m.size else m.size + 1 := by
  have hkeys : (m.put k v).size = ((putPair k v m.pairs).map (·.1)).length := (List.length_map _).symm
  rw [hkeys, map_fst_putPair]
  simp only [← mem_keys_iff, keys]
  split <;> simp [size]

theorem get?_of_mem {m : OrderedMap κ β} {k : κ} {v : β} (hmem : (k, v) ∈ m.pairs) : m.get? k = some v := by
  obtain ⟨l₁, l₂, heq⟩ := List.append_of_mem hmem
  have h := m.nodup
  rw [heq, List.map_append, List.map_cons, List.nodup_append] at h
  refine List.lookup_eq_some_iff.2 ⟨l₁, l₂, heq, fun p hp ↦ ?_⟩
  exact bne_iff_ne.2 (h.2.2 p.1 (List.mem_map_of_mem hp) k List.mem_cons_self).symm

/-- Pairs are put one after the other, each with a value that depends on the one before: each key is met once. -/
theorem get?_foldl_put {γ : Type} (f : Option β → γ → β) (n : OrderedMap κ γ) (m : OrderedMap κ β) (k : κ) :
    (n.pairs.foldl (fun m p ↦ m.put p.1 (f (m.get? p.1) p.2)) m).get? k =
      match n.get? k with
      | none => m.get? k
      | some v => some (f (m.get? k) v) := by
  obtain ⟨pairs, h⟩ := n
  rw [get?.eq_def ⟨pairs, h⟩]
  dsimp only
  induction pairs generalizing m with
  | nil => rfl
  | cons pair rest ih =>
    obtain ⟨k₀, v₀⟩ := pair
    obtain ⟨hnew, hrest⟩ := List.nodup_cons.1 h
    rw [List.foldl_cons, ih _ hrest, List.lookup_cons]
    by_cases hk : k = k₀
    · subst hk
      have hnone : rest.lookup k = none := by
        rw [List.lookup_eq_none_iff]
        intro p hp
        have hne : p.1 ≠ k := fun heq ↦ hnew (List.mem_map.2 ⟨p, hp, heq⟩)
        simpa using hne.symm
      simp [hnone]
    · have hbeq : (k == k₀) = false := by simpa using hk
      rw [get?_put_of_ne m _ hk, hbeq]

end Coverage.OrderedMap
