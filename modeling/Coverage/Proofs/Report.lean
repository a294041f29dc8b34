import Mathlib.Data.Prod.Lex
import Coverage.Proofs.Report.Grouping
import Coverage.Proofs.Report.Lines

/-!
# Records that can be reported on

A record is shaped if its keys and kinds fit, its groups are numbered by position, and its branch entries come in the
order of their groups and arms. There is a report on the counts of such a record whatever the counts are, and grouping
the branches of the report does not change their order.
-/

namespace Coverage

/-- The group and arm of a branch entry. -/
def Entry.position? {κ : Type} (e : Entry κ) : Option (Int × Int) :=
  match e.group, e.arm with
  | some group, some arm => some (group, arm)
  | _, _ => none

/-- The key of an entry tells its kind and span. Branch entries, and only they, have a group and an arm; function
entries, and only they, have a name. -/
structure Entry.Proper (e : Entry Kind) : Prop where
  keyed : e.key = keyOf e.kind e.span
  grouped : e.group.isSome = true ↔ e.kind = .branch
  armed : e.arm.isSome = true ↔ e.kind = .branch
  named : e.name.isSome = true ↔ e.kind = .function

/-- Positions are compared by group, then by arm. -/
abbrev Precedes : Int × Int → Int × Int → Prop := Prod.Lex (· < ·) (· < ·)

/-- What is true of the record of every pass. -/
structure Metadata.Shaped (m : Metadata Kind) : Prop where
  distinct : m.keys.Nodup
  proper : ∀ e ∈ m.entries, e.Proper
  numbered : ∀ (i : Nat) (g : Group), m.groups[i]? = some g → g.id = i
  within : ∀ e ∈ m.entries, ∀ group arm, e.position? = some (group, arm) →
    ∃ g ∈ m.groups, g.id = group ∧ 0 ≤ arm ∧ arm < g.arms
  ordered : (m.entries.filterMap Entry.position?).Pairwise Precedes

def BranchRecord.position (b : BranchRecord) : Int × Int := (b.group, b.arm)

theorem position_of_proper {e : Entry Kind} (h : e.Proper) (hbranch : e.kind = .branch) :
    ∃ group arm, e.group = some group ∧ e.arm = some arm ∧ e.position? = some (group, arm) := by
  obtain ⟨group, hgroup⟩ := Option.isSome_iff_exists.1 (h.grouped.2 hbranch)
  obtain ⟨arm, harm⟩ := Option.isSome_iff_exists.1 (h.armed.2 hbranch)
  exact ⟨group, arm, hgroup, harm, by rw [Entry.position?, hgroup, harm]⟩

theorem group_of_position {e : Entry Kind} {position : Int × Int} (h : e.position? = some position) :
    e.group = some position.1 := by
  rw [Entry.position?] at h
  split at h
  next hgroup _ =>
    cases h
    exact hgroup
  next => cases h

theorem position_eq_none {e : Entry Kind} (h : e.Proper) (hkind : e.kind ≠ .branch) : e.position? = none := by
  have hgroup : e.group = none := Option.not_isSome_iff_eq_none.1 (mt h.grouped.1 hkind)
  rw [Entry.position?, hgroup]

/-! ## Reports on shaped records -/

namespace Metadata.Shaped

variable {m : Metadata Kind}

/-- No entry of a shaped record has a fault. -/
theorem sound (h : m.Shaped) : ∀ e ∈ m.entries.map Entry.unchecked, Report.Sound m.groups e := by
  intro _ hmem fault hfault
  obtain ⟨e, he, rfl⟩ := List.mem_map.1 hmem
  cases hfault with
  | unknownKind hkind => cases hkind
  | noGroup hkind hmissing =>
    obtain ⟨group, arm, hgroup, harm, -⟩ := position_of_proper (h.proper e he) (AnyKind.known.inj hkind)
    simp [Entry.unchecked, hgroup, harm] at hmissing
  | @unknownGroup id arm hkind hgroup harm hnone =>
    have hposition : e.position? = some (id, arm) := by
      rw [Entry.position?, show e.group = some id from hgroup, show e.arm = some arm from harm]
    obtain ⟨g, hg, hid, -⟩ := h.within e he id arm hposition
    exact hnone g hg hid

/-- Only branch entries have a position. -/
theorem filterMap_position (h : m.Shaped) :
    (m.entriesOf .branch).filterMap Entry.position? = m.entries.filterMap Entry.position? := by
  rw [entriesOf, List.filterMap_filter]
  refine List.filterMap_congr fun e he ↦ ?_
  split
  next => rfl
  next hother =>
    refine (position_eq_none (h.proper e he) fun hkind ↦ hother ?_).symm
    exact Entry.isOf_known (e := e.unchecked) (congrArg AnyKind.known hkind) .branch

/-- There is a report on a shaped record, with its branches in the order of the record. -/
theorem analyze (h : m.Shaped) (raw : Counts) :
    ∃ report, analyze raw m = .ok report ∧
      report.branches.map (·.position) = m.entries.filterMap Entry.position? := by
  obtain ⟨report, hreport, -, hlists, -⟩ := (Report.analysed_ofEntries raw m.filename m.groups _).lines h.sound
  have hbranches := hlists.branches
  rw [Report.filter_unchecked, List.forall₂_map_left_iff] at hbranches
  refine ⟨report, hreport, ?_⟩
  rw [← h.filterMap_position, entriesOf]
  generalize m.entries.filter (·.isOf .branch) = es at hbranches
  generalize report.branches = bs at hbranches
  induction hbranches with
  | nil => rfl
  | @cons e b _ _ hline _ ih =>
    have hposition : e.position? = some b.position := by
      rw [Entry.position?, show e.group = some b.group from hline.2.1, show e.arm = some b.arm from hline.2.2.1]
      rfl
    rw [List.map_cons, List.filterMap_cons_some hposition, ih]

end Metadata.Shaped

/-! ## Grouping branches -/

namespace Report

/-- The arms `bs` in their order, those of one group together. -/
structure Grouped (pairs : List (Int × List BranchRecord)) (bs : List BranchRecord) : Prop where
  flat : pairs.flatMap (·.2) = bs
  sorted : (pairs.map (·.1)).Pairwise (· < ·)
  filled : ∀ p ∈ pairs, p.2 ≠ [] ∧ ∀ b ∈ p.2, b.group = p.1

/-- If the branches of a report come in the order of their groups and arms, grouping them keeps their order. -/
theorem grouped_branchGroups {r : Report} (h : (r.branches.map (·.position)).Pairwise Precedes) :
    Grouped r.branchGroups r.branches := by
  rw [List.pairwise_map] at h
  have hcollected := collected_branches r
  have hgroup {p : Int × List BranchRecord} {b : BranchRecord} (hb : b ∈ r.branches.filter (·.group == p.1)) :
      b.group = p.1 := by simpa using (List.mem_filter.1 hb).2
  -- The arms of a group are sorted already.
  have hsame : ∀ p ∈ r.branchGroups, p.2 = r.branches.filter (·.group == p.1) := by
    intro p hp
    rw [snd_of_mem_branchGroups r hp]
    refine List.mergeSort_of_pairwise ((h.filter _).imp_of_mem fun hb hc hbc ↦ decide_eq_true ?_)
    rcases Prod.lex_iff.1 hbc with hlt | ⟨-, hlt⟩
    · exact absurd hlt (by simp [BranchRecord.position, hgroup hb, hgroup hc])
    · exact Int.le_of_lt hlt
  have hsorted : (r.branchGroups.map (·.1)).Pairwise (· < ·) := by
    rw [fst_branchGroups]
    refine hcollected.order.imp_of_mem fun {g g'} hg hg' hlt ↦ ?_
    have hi : firstMet r.branches g < r.branches.length := firstMet_lt ((hcollected.occurring g).1 hg)
    have hj : firstMet r.branches g' < r.branches.length := firstMet_lt ((hcollected.occurring g').1 hg')
    have hmet : r.branches[firstMet r.branches g].group = g := beq_iff_eq.1 (List.findIdx_getElem (w := hi))
    have hmet' : r.branches[firstMet r.branches g'].group = g' := beq_iff_eq.1 (List.findIdx_getElem (w := hj))
    rcases Prod.lex_iff.1 (List.pairwise_iff_getElem.1 h _ _ hi hj hlt) with hbefore | ⟨heq, -⟩
    · simpa [BranchRecord.position, hmet, hmet'] using hbefore
    · have hequal : g = g' := by simpa [BranchRecord.position, hmet, hmet'] using heq
      exact absurd hlt (by simp [hequal])
  refine ⟨?_, hsorted, fun p hp ↦ ?_⟩
  · refine List.Perm.eq_of_pairwise (fun b c _ _ hbc hcb ↦ absurd hbc (asymm hcb)) ?_ h (flatMap_branchGroups_perm r)
    rw [List.pairwise_flatMap]
    refine ⟨fun p hp ↦ hsame p hp ▸ h.filter _, (List.pairwise_map.1 hsorted).imp_of_mem fun hp hq hlt b hb c hc ↦ ?_⟩
    rw [hsame _ hp] at hb
    rw [hsame _ hq] at hc
    exact .left _ _ (by rwa [hgroup hb, hgroup hc])
  · rw [hsame p hp]
    refine ⟨fun hnil ↦ ?_, fun b hb ↦ hgroup hb⟩
    obtain ⟨b, hb, hbp⟩ := (hcollected.occurring p.1).1 (fst_branchGroups r ▸ List.mem_map_of_mem hp)
    exact List.filter_eq_nil_iff.1 hnil b hb (by simp [hbp])

end Report

end Coverage
