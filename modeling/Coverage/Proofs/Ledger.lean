import Coverage.Ledger
import Coverage.Proofs.OrderedMap

/-!
# What counting does to a ledger

Counting a key changes the count of that key in its file and nothing else; after several calls each count has grown by
the number of calls for it. A ledger has grown under some keys of a file if it differs from another one only by higher
counts of these.
-/

namespace Coverage.Ledger

theorem forFile_hit (l : Ledger) (file f : String) (key : Key) :
    (l.hit file key).forFile f = if f = file then addCount (l.forFile file) key 1 else l.forFile f := by
  unfold hit
  rw [forFile, OrderedMap.get?_put]
  by_cases h : f = file <;> simp [h, forFile]

theorem get?_addCount (c : Counts) (key k : Key) (n : Int) :
    (addCount c key n).get? k = if k = key then some ((c.get? key).getD 0 + n) else c.get? k := by
  rw [addCount, OrderedMap.get?_put]
  by_cases h : k = key <;> simp [h]

theorem count_hit (l : Ledger) (file : String) (key k : Key) :
    (l.hit file key).count file k = l.count file k + if k = key then 1 else 0 := by
  rw [count, forFile_hit, if_pos rfl, get?_addCount]
  by_cases h : k = key <;> simp [h, count]

theorem count_hit_eq (l : Ledger) (file f : String) (key k : Key) :
    (l.hit file key).count f k = l.count f k + if (file, key) = (f, k) then 1 else 0 := by
  by_cases hf : f = file
  · subst hf
    rw [count_hit]
    simp [eq_comm]
  · rw [count, forFile_hit, if_neg hf, ← count]
    simp [Ne.symm hf]

@[simp]
theorem count_empty (f : String) (k : Key) : ({} : Ledger).count f k = 0 := by
  simp [count, forFile]

theorem contains_hit {l : Ledger} {file f : String} {key : Key} :
    (l.hit file key).contains f = true ↔ f = file ∨ l.contains f = true := by
  rw [contains, hit, OrderedMap.contains_put, Bool.or_eq_true, beq_iff_eq, contains]

/-! ## Several calls -/

/-- Counts keys of files one after the other. -/
def hitAll (l : Ledger) (calls : List (String × Key)) : Ledger := calls.foldl (fun l call ↦ l.hit call.1 call.2) l

theorem count_hitAll (l : Ledger) (calls : List (String × Key)) (f : String) (k : Key) :
    (l.hitAll calls).count f k = l.count f k + calls.count (f, k) := by
  induction calls generalizing l with
  | nil => simp [hitAll]
  | cons call rest ih =>
    have hrest : (l.hitAll (call :: rest)).count f k = (l.hit call.1 call.2).count f k + rest.count (f, k) := ih _
    rw [hrest, count_hit_eq, List.count_cons]
    by_cases hcall : call = (f, k) <;> simp [hcall]
    omega

theorem contains_hitAll {l : Ledger} {calls : List (String × Key)} {f : String} :
    (l.hitAll calls).contains f = true ↔ f ∈ calls.map (·.1) ∨ l.contains f = true := by
  induction calls generalizing l with
  | nil => simp [hitAll]
  | cons call rest ih =>
    have hrest : (l.hitAll (call :: rest)).contains f = true ↔
        f ∈ rest.map (·.1) ∨ (l.hit call.1 call.2).contains f = true := ih
    rw [hrest, contains_hit, List.map_cons, List.mem_cons, or_left_comm, or_assoc]

/-! ## Higher counts -/

/-- The second ledger differs from the first only by higher counts of some keys of a file. -/
structure Grown (file : String) (keys : List Key) (l l' : Ledger) : Prop where
  others : ∀ f, f ≠ file → l'.forFile f = l.forFile f
  unlisted : ∀ key, key ∉ keys → l'.count file key = l.count file key
  le : ∀ key, l.count file key ≤ l'.count file key

namespace Grown

variable {file : String} {keys : List Key} {l l' : Ledger}

theorem refl (file : String) (keys : List Key) (l : Ledger) : Grown file keys l l := by
  constructor <;> simp

theorem hit (h : Grown file keys l l') {key : Key} (hkey : key ∈ keys) : Grown file keys l (l'.hit file key) where
  others f hf := by rw [forFile_hit, if_neg hf, h.others f hf]
  unlisted k hk := by
    have hne : k ≠ key := fun heq ↦ hk (heq ▸ hkey)
    rw [count_hit, if_neg hne, h.unlisted k hk, Int.add_zero]
  le k := by
    have hle : l.count file k ≤ l'.count file k := h.le k
    rw [count_hit]
    split <;> omega

/-- Both ledgers count the same. -/
theorem hit_both (h : Grown file keys l l') (f : String) (key : Key) :
    Grown file keys (l.hit f key) (l'.hit f key) := by
  by_cases hf : f = file
  · subst hf
    constructor
    · intro g hg
      rw [forFile_hit, forFile_hit, if_neg hg, if_neg hg, h.others g hg]
    · intro k hk
      rw [count_hit, count_hit, h.unlisted k hk]
    · intro k
      have hle : l.count f k ≤ l'.count f k := h.le k
      rw [count_hit, count_hit]
      omega
  · have hcount (l : Ledger) (k : Key) : (l.hit f key).count file k = l.count file k := by
      rw [count, forFile_hit, if_neg (Ne.symm hf), count]
    constructor
    · intro g hg
      rw [forFile_hit, forFile_hit, h.others g hg, h.others f hf]
    · intro k hk
      rw [hcount, hcount, h.unlisted k hk]
    · intro k
      rw [hcount, hcount]
      exact h.le k

end Grown

end Coverage.Ledger
