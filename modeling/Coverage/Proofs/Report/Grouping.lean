import Mathlib.Data.List.Perm.Basic
import Coverage.Proofs.OrderedMap
import Coverage.Report

/-!
# Branches by group

The arms of a report are put into groups whatever their group numbers and positions are: groups may be interleaved,
positions may be missing or repeated. The groups are those that occur, in the order in which they are first met, and
together they hold every arm once. The arms of a group are sorted by position, and arms of one position stay in the
order in which the report lists them.
-/

namespace Coverage

namespace Report

variable {bs : List BranchRecord}

def firstMet (bs : List BranchRecord) (group : Int) : Nat := bs.findIdx (·.group == group)

/-- The groups of some arms: nothing is lost, added or moved to another group, and sorting is stable. -/
structure GroupsOf (bs : List BranchRecord) (groups : List (Int × List BranchRecord)) : Prop where
  occurring : ∀ group, group ∈ groups.map (·.1) ↔ ∃ b ∈ bs, b.group = group
  order : (groups.map (·.1)).Pairwise fun g g' ↦ firstMet bs g < firstMet bs g'
  whole : (groups.flatMap (·.2)).Perm bs
  own : ∀ p ∈ groups, p.2.Perm (bs.filter (·.group == p.1))
  sorted : ∀ p ∈ groups, p.2.Pairwise fun a b ↦ a.arm ≤ b.arm
  stable : ∀ p ∈ groups, ∀ arm, p.2.filter (·.arm == arm) = bs.filter fun b ↦ b.group == p.1 && b.arm == arm

/-! ## Collecting -/

theorem firstMet_lt {group : Int} (h : ∃ b ∈ bs, b.group = group) : firstMet bs group < bs.length := by
  obtain ⟨b, hb, rfl⟩ := h
  exact List.findIdx_lt_length.2 ⟨b, hb, beq_self_eq_true _⟩

theorem firstMet_append {group : Int} (h : ∃ b ∈ bs, b.group = group)
    (more : List BranchRecord) : firstMet (bs ++ more) group = firstMet bs group := by
  rw [firstMet, List.findIdx_append, if_pos (show bs.findIdx (·.group == group) < bs.length from firstMet_lt h),
    firstMet]

/-- A group that was not met before is first met at the end. -/
theorem firstMet_concat {b : BranchRecord} (h : ¬∃ c ∈ bs, c.group = b.group) :
    firstMet (bs ++ [b]) b.group = bs.length := by
  have hnone : bs.findIdx (·.group == b.group) = bs.length := by
    rw [List.findIdx_eq_length]
    intro c hc
    simpa using fun heq ↦ h ⟨c, hc, heq⟩
  rw [firstMet, List.findIdx_append, hnone, if_neg (Nat.lt_irrefl _)]
  simp [List.findIdx_cons]

/-- The map after the arms `bs`: the arms of each group that was met, in their order. -/
structure Collected (bs : List BranchRecord) (m : OrderedMap Int (List BranchRecord)) : Prop where
  occurring : ∀ group, group ∈ m.keys ↔ ∃ b ∈ bs, b.group = group
  order : m.keys.Pairwise fun g g' ↦ firstMet bs g < firstMet bs g'
  arms : ∀ group, (m.get? group).getD [] = bs.filter (·.group == group)

theorem collected_nil : Collected [] {} :=
  ⟨by simp [OrderedMap.keys], .nil, by simp⟩

/-- An arm of a known group goes to the end of the group; one of a new group starts it behind all others. -/
theorem Collected.addArm {m : OrderedMap Int (List BranchRecord)} (h : Collected bs m)
    (b : BranchRecord) : Collected (bs ++ [b]) (addArm m b) := by
  have hkeys : (Report.addArm m b).keys = if b.group ∈ m.keys then m.keys else m.keys ++ [b.group] :=
    OrderedMap.map_fst_putPair b.group _ m.pairs
  have hkept : m.keys.Pairwise fun g g' ↦ firstMet (bs ++ [b]) g < firstMet (bs ++ [b]) g' := by
    refine h.order.imp_of_mem fun hg hg' hlt ↦ ?_
    rwa [firstMet_append ((h.occurring _).1 hg), firstMet_append ((h.occurring _).1 hg')]
  refine ⟨fun group ↦ ?_, ?_, fun group ↦ ?_⟩
  · rw [hkeys]
    by_cases hmet : b.group ∈ m.keys
    · rw [if_pos hmet, h.occurring]
      have hold : ∃ c ∈ bs, c.group = b.group := (h.occurring _).1 hmet
      grind
    · rw [if_neg hmet, List.mem_append, h.occurring]
      grind
  · rw [hkeys]
    by_cases hmet : b.group ∈ m.keys
    · rwa [if_pos hmet]
    · rw [if_neg hmet, List.pairwise_append]
      refine ⟨hkept, List.pairwise_singleton _ _, fun g hg g' hg' ↦ ?_⟩
      rw [List.mem_singleton.1 hg', firstMet_concat (mt (h.occurring _).2 hmet),
        firstMet_append ((h.occurring g).1 hg)]
      exact firstMet_lt ((h.occurring g).1 hg)
  · rw [Report.addArm, OrderedMap.get?_put, List.filter_append, ← h.arms group]
    by_cases hsame : group = b.group
    · simp [hsame]
    · simp [hsame, Ne.symm hsame]

theorem Collected.foldl {done : List BranchRecord} {m : OrderedMap Int (List BranchRecord)} (h : Collected done m)
    (bs : List BranchRecord) : Collected (done ++ bs) (bs.foldl Report.addArm m) := by
  induction bs generalizing done m with
  | nil => simpa using h
  | cons b bs ih => simpa using ih (h.addArm b)

/-! ## Nothing is lost -/

/-- Arms are divided among distinct groups. -/
theorem flatMap_filter_perm (bs : List BranchRecord) {groups : List Int} (hdistinct : groups.Nodup) :
    (groups.flatMap fun g ↦ bs.filter (·.group == g)).Perm (bs.filter fun b ↦ groups.contains b.group) := by
  induction groups with
  | nil => simp
  | cons g groups ih =>
    rw [List.nodup_cons] at hdistinct
    have hrest : ∀ b : BranchRecord, (!(b.group == g) && (g :: groups).contains b.group) = groups.contains b.group := by
      intro b
      by_cases hg : b.group = g
      · simpa [hg] using hdistinct.1
      · simp [hg]
    calc
      _ = bs.filter (·.group == g) ++ groups.flatMap fun g ↦ bs.filter (·.group == g) := List.flatMap_cons
      _ |>.Perm (bs.filter (·.group == g) ++ bs.filter fun b ↦ groups.contains b.group) :=
        (ih hdistinct.2).append_left _
      _ = (bs.filter fun b ↦ (g :: groups).contains b.group).filter (·.group == g) ++
          (bs.filter fun b ↦ (g :: groups).contains b.group).filter fun b ↦ !(b.group == g) := by
        simp only [List.filter_filter, hrest]
        congr 2
        funext b
        by_cases hg : b.group = g <;> simp [hg]
      _ |>.Perm _ := List.filter_append_perm _ _

/-! ## Sorting -/

/-- Arms are compared by position alone. -/
def byArm (a b : BranchRecord) : Bool := decide (a.arm ≤ b.arm)

theorem byArm_trans (a b c : BranchRecord) (hab : byArm a b = true) (hbc : byArm b c = true) : byArm a c = true := by
  simp only [byArm, decide_eq_true_eq] at *
  omega

theorem byArm_total (a b : BranchRecord) : (byArm a b || byArm b a) = true := by
  simp only [byArm, Bool.or_eq_true, decide_eq_true_eq]
  omega

theorem pairwise_sorted (bs : List BranchRecord) : (bs.mergeSort byArm).Pairwise fun a b ↦ a.arm ≤ b.arm :=
  (List.pairwise_mergeSort byArm_trans byArm_total bs).imp of_decide_eq_true

/-- Sorting keeps arms of one position in their order: they are a sorted part of the list before, so they are a part of
the sorted list, and it has no others. -/
theorem filter_sorted (bs : List BranchRecord) (arm : Int) :
    (bs.mergeSort byArm).filter (·.arm == arm) = bs.filter (·.arm == arm) := by
  have hequal : (bs.filter (·.arm == arm)).Pairwise fun a b ↦ byArm a b = true := by
    refine List.pairwise_of_forall_mem_list fun a ha b hb ↦ ?_
    have ha : a.arm = arm := by simpa using (List.mem_filter.1 ha).2
    have hb : b.arm = arm := by simpa using (List.mem_filter.1 hb).2
    simp [byArm, ha, hb]
  have hpart : (bs.filter (·.arm == arm)).Sublist (bs.mergeSort byArm) :=
    List.sublist_mergeSort byArm_trans byArm_total hequal List.filter_sublist
  have hwithin : (bs.filter (·.arm == arm)).Sublist ((bs.mergeSort byArm).filter (·.arm == arm)) := by
    simpa using hpart.filter (·.arm == arm)
  have hperm := (List.mergeSort_perm bs byArm).filter (·.arm == arm)
  exact (hwithin.eq_of_length hperm.length_eq.symm).symm

/-! ## The groups of a report -/

section Groups

variable (r : Report)

theorem collected_branches : Collected r.branches (r.branches.foldl addArm {}) := by
  simpa using collected_nil.foldl r.branches

theorem branchGroups_eq : r.branchGroups = (r.branches.foldl addArm {}).keys.map fun g ↦
    (g, (r.branches.filter (·.group == g)).mergeSort byArm) := by
  rw [branchGroups, OrderedMap.keys, List.map_map]
  refine List.map_congr_left fun p hp ↦ ?_
  rw [Function.comp_apply, ← (collected_branches r).arms, OrderedMap.get?_of_mem hp]
  rfl

theorem fst_branchGroups : r.branchGroups.map (·.1) = (r.branches.foldl addArm {}).keys := by
  simp [branchGroups_eq, Function.comp_def]

theorem snd_of_mem_branchGroups {p : Int × List BranchRecord} (hp : p ∈ r.branchGroups) :
    p.2 = (r.branches.filter (·.group == p.1)).mergeSort byArm := by
  rw [branchGroups_eq] at hp
  obtain ⟨g, -, rfl⟩ := List.mem_map.1 hp
  rfl

theorem flatMap_branchGroups_perm : (r.branchGroups.flatMap (·.2)).Perm r.branches := by
  have hall : ∀ b ∈ r.branches, (r.branches.foldl addArm {}).keys.contains b.group = true := by
    intro b hb
    exact List.contains_iff_mem.2 (((collected_branches r).occurring _).2 ⟨b, hb, rfl⟩)
  have hdivided := flatMap_filter_perm r.branches (r.branches.foldl addArm {}).nodup_keys
  rw [List.filter_eq_self.2 hall] at hdivided
  rw [branchGroups_eq, List.flatMap_map]
  exact (List.Perm.flatMap_left _ fun g _ ↦ List.mergeSort_perm _ _).trans hdivided

end Groups

/-- However the arms of a report are numbered and mixed, grouping keeps each of them, in its own group, and sorts each
group by position in a stable way. -/
theorem groupsOf_branchGroups (r : Report) : GroupsOf r.branches r.branchGroups := by
  constructor
  case occurring => exact fst_branchGroups r ▸ (collected_branches r).occurring
  case order => exact fst_branchGroups r ▸ (collected_branches r).order
  case whole => exact flatMap_branchGroups_perm r
  case own =>
    intro p hp
    rw [snd_of_mem_branchGroups r hp]
    exact List.mergeSort_perm _ _
  case sorted =>
    intro p hp
    rw [snd_of_mem_branchGroups r hp]
    exact pairwise_sorted _
  case stable =>
    intro p hp arm
    rw [snd_of_mem_branchGroups r hp, filter_sorted, List.filter_filter]
    congr 1
    funext b
    exact Bool.and_comm _ _

end Report

end Coverage
