import Coverage.Proofs.Ledger
import Coverage.Report
import Coverage.Run

/-!
# Merging ledgers

A ledger is seen through its counts and its files. Through these, merging is adding: it is associative and commutative,
and calls that are shared out over several ledgers come together again, however the ledgers are merged. A report reads
counts only, so it is the same for ledgers that agree.
-/

namespace Coverage.Ledger

/-! ## What is seen of a merged ledger -/

theorem get?_mergeCounts (c d : Counts) (key : Key) :
    ((mergeCounts c d).get? key).getD 0 = (c.get? key).getD 0 + (d.get? key).getD 0 := by
  have hget := OrderedMap.get?_foldl_put (fun n n' ↦ n.getD 0 + n') d c key
  unfold mergeCounts addCount
  rw [hget]
  cases d.get? key <;> simp

theorem forFile_merge (l m : Ledger) (file : String) :
    (l.merge m).forFile file = mergeCounts (l.forFile file) (m.forFile file) := by
  have hget := OrderedMap.get?_foldl_put (fun c d ↦ mergeCounts (c.getD {}) d) m.files l.files file
  unfold forFile merge
  rw [hget]
  cases m.files.get? file with
  | none => rfl
  | some d => rfl

theorem count_merge (l m : Ledger) (file : String) (key : Key) :
    (l.merge m).count file key = l.count file key + m.count file key := by
  rw [count, forFile_merge, get?_mergeCounts, count, count]

theorem contains_merge {l m : Ledger} {file : String} :
    (l.merge m).contains file = true ↔ l.contains file = true ∨ m.contains file = true := by
  have hget := OrderedMap.get?_foldl_put (fun c d ↦ mergeCounts (c.getD {}) d) m.files l.files file
  unfold contains merge OrderedMap.contains
  rw [hget]
  cases m.files.get? file <;> simp

/-! ## Ledgers that agree -/

/-- Nobody who reads counts and files can tell the two ledgers apart. -/
structure Agrees (l m : Ledger) : Prop where
  count : ∀ file key, l.count file key = m.count file key
  fileNames : l.fileNames = m.fileNames

/-- The files in order depend only on which files there are. -/
theorem fileNames_congr {l m : Ledger} (h : ∀ file, l.contains file = true ↔ m.contains file = true) :
    l.fileNames = m.fileNames := by
  have hperm : l.files.keys.Perm m.files.keys :=
    (List.perm_ext_iff_of_nodup l.files.nodup_keys m.files.nodup_keys).2 fun file ↦ by
      rw [OrderedMap.mem_keys_iff, OrderedMap.mem_keys_iff]
      exact h file
  have hle (a b : String) : (!decide (b < a)) = true ↔ a ≤ b := by
    rw [Bool.not_eq_true', decide_eq_false_iff_not, String.not_lt]
  have hsorted (keys : List String) :
      (keys.mergeSort fun a b ↦ !decide (b < a)).Pairwise fun a b ↦ (!decide (b < a)) = true := by
    refine List.pairwise_mergeSort (fun a b c hab hbc ↦ ?_) (fun a b ↦ ?_) keys
    · exact (hle a c).2 (String.le_trans ((hle a b).1 hab) ((hle b c).1 hbc))
    · rw [Bool.or_eq_true, hle, hle]
      exact String.le_total a b
  refine List.Perm.eq_of_pairwise (fun a b _ _ hab hba ↦ ?_) (hsorted _) (hsorted _) ?_
  · exact String.le_antisymm ((hle a b).1 hab) ((hle b a).1 hba)
  · exact ((List.mergeSort_perm _ _).trans hperm).trans (List.mergeSort_perm _ _).symm

theorem merge_comm (l m : Ledger) : (l.merge m).Agrees (m.merge l) := by
  refine ⟨fun file key ↦ ?_, fileNames_congr fun file ↦ ?_⟩
  · rw [count_merge, count_merge, Int.add_comm]
  · rw [contains_merge, contains_merge, or_comm]

theorem merge_assoc (l m n : Ledger) : ((l.merge m).merge n).Agrees (l.merge (m.merge n)) := by
  refine ⟨fun file key ↦ ?_, fileNames_congr fun file ↦ ?_⟩
  · rw [count_merge, count_merge, count_merge, count_merge, Int.add_assoc]
  · rw [contains_merge, contains_merge, contains_merge, contains_merge, or_assoc]

/-- A report reads the counts of its entries and nothing else. -/
theorem ofEntries_congr {raw raw' : Counts} (h : ∀ key, (raw.get? key).getD 0 = (raw'.get? key).getD 0)
    (filename : String) (groups : List Group) (entries : List (Entry AnyKind)) :
    Report.ofEntries raw filename groups entries = Report.ofEntries raw' filename groups entries := by
  have hadd : Report.addEntry raw groups = Report.addEntry raw' groups := by
    funext r e
    unfold Report.addEntry
    rw [h e.key]
  rw [Report.ofEntries, Report.ofEntries, hadd]

/-! ## Calls shared out over ledgers -/

/-- A way to merge ledgers into one, with the calls that each of them received. -/
inductive Merging where
  | fresh (calls : List (String × Key))
  | merge (left right : Merging)

namespace Merging

/-- All calls, those of the ledger on the left first. -/
def calls : Merging → List (String × Key)
  | fresh calls => calls
  | merge left right => left.calls ++ right.calls

def ledger : Merging → Ledger
  | fresh calls => ({} : Ledger).hitAll calls
  | merge left right => left.ledger.merge right.ledger

theorem count_ledger (t : Merging) (file : String) (key : Key) :
    t.ledger.count file key = t.calls.count (file, key) := by
  induction t with
  | fresh calls => exact (count_hitAll {} calls file key).trans (Int.zero_add _)
  | merge left right hleft hright =>
    rw [ledger, count_merge, hleft, hright, calls, List.count_append, Int.natCast_add]

theorem contains_ledger {t : Merging} {file : String} : t.ledger.contains file = true ↔ file ∈ t.calls.map (·.1) := by
  induction t with
  | fresh calls => exact contains_hitAll.trans (or_iff_left Bool.false_ne_true)
  | merge left right hleft hright =>
    rw [ledger, contains_merge, hleft, hright, calls, List.map_append, List.mem_append]

/-- Neither the order of the calls nor the shape of the merges is seen. -/
theorem agrees_ledger {t u : Merging} (h : t.calls.Perm u.calls) : t.ledger.Agrees u.ledger := by
  refine ⟨fun file key ↦ ?_, fileNames_congr fun file ↦ ?_⟩
  · rw [count_ledger, count_ledger, h.count_eq]
  · rw [contains_ledger, contains_ledger, (h.map _).mem_iff]

end Merging

/-! ## Merging in memory -/

theorem ledger_mergeLedgers (m : Program.Memory) (l l' : LedgerId) :
    (m.mergeLedgers l l').2.ledger (m.mergeLedgers l l').1 = (m.ledger l).merge (m.ledger l') := by
  simp [Program.Memory.mergeLedgers, Program.Memory.ledger]

/-- The ledgers that were there before stay as they are, those that are merged among them. -/
theorem ledger_mergeLedgers_of_lt (m : Program.Memory) (l l' : LedgerId) {j : LedgerId} (h : j < m.ledgers.size) :
    (m.mergeLedgers l l').2.ledger j = m.ledger j := by
  simp [Program.Memory.mergeLedgers, Program.Memory.ledger, Array.getElem?_push_lt, h]

/-- Calls that are shared out over new ledgers, in any order, come together again however the ledgers are merged: the
counts, the files and every report are those of one ledger that received all calls. For any ledgers, merging adds the
counts; it is commutative and associative; and it changes no ledger that is there, even one that is merged with
itself. -/
theorem merge_loses_nothing {calls : List (String × Key)} {t : Merging} (shared : t.calls.Perm calls)
    (a b c : Ledger) (m : Program.Memory) (l l' : LedgerId) :
    (t.ledger.Agrees (({} : Ledger).hitAll calls) ∧
      (∀ (κ : Type) [Kinded κ] (record : Metadata κ),
        analyzeLedger t.ledger record = analyzeLedger (({} : Ledger).hitAll calls) record) ∧
      ∀ filename groups entries, Report.ofEntries (t.ledger.forFile filename) filename groups entries =
        Report.ofEntries ((({} : Ledger).hitAll calls).forFile filename) filename groups entries) ∧
    (∀ file key, (a.merge b).count file key = a.count file key + b.count file key) ∧
    (a.merge b).Agrees (b.merge a) ∧ ((a.merge b).merge c).Agrees (a.merge (b.merge c)) ∧
    (m.mergeLedgers l l').2.ledger (m.mergeLedgers l l').1 = (m.ledger l).merge (m.ledger l') ∧
    ∀ j < m.ledgers.size, (m.mergeLedgers l l').2.ledger j = m.ledger j := by
  have hagrees : t.ledger.Agrees (({} : Ledger).hitAll calls) := Merging.agrees_ledger (u := .fresh calls) shared
  have hreport := fun filename ↦ ofEntries_congr (hagrees.count filename) filename
  exact ⟨⟨hagrees, fun κ _ record ↦ hreport record.filename record.groups _, hreport⟩, count_merge a b, merge_comm a b,
    merge_assoc a b c, ledger_mergeLedgers m l l', fun j ↦ ledger_mergeLedgers_of_lt m l l'⟩

/-- Three calls over three ledgers, of which one receives none. -/
theorem merge_loses_nothing_of_three_calls :
    let calls := [("b.py", "s1"), ("a.py", "s2"), ("b.py", "s1")]
    let t : Merging := .merge (.fresh [("b.py", "s1")]) (.merge (.fresh []) (.fresh [("b.py", "s1"), ("a.py", "s2")]))
    let l := ({} : Ledger).hitAll calls
    t.calls.Perm calls ∧ t.ledger.Agrees l ∧
      (l.merge l).count "b.py" "s1" = 4 ∧ ((l.merge l).merge {}).Agrees (l.merge (l.merge {})) ∧
      (Program.Memory.ledger (Program.Memory.mergeLedgers { ledgers := #[l] } 0 0).2 0) = l := by
  intro calls t l
  have hshared : t.calls.Perm calls := by decide
  obtain ⟨⟨hagrees, -⟩, hcount, -, hassoc, -, hkept⟩ :=
    merge_loses_nothing hshared l l {} { ledgers := #[l] } 0 0
  refine ⟨hshared, hagrees, (hcount "b.py" "s1").trans ?_, hassoc, (hkept 0 (by decide)).trans rfl⟩
  decide

end Coverage.Ledger
