import Mathlib.Data.Fintype.EquivFin
import Coverage.Proofs.Metadata.History
import Coverage.Proofs.Report.Lines

/-!
# Groups with the same identifier

A record numbers its groups by how many it has, while the groups that it is read with can have any identifiers. So
the next group is new after every history exactly if no identifier reaches the number of groups. A record looks for the
first group with an identifier and a report for the last; they find the same construct as long as groups with the same
identifier agree on it.
-/

namespace Coverage.Metadata

variable {κ : Type}

/-- A group that is added next has an identifier that no group has. -/
def NextIsNew (m : Metadata κ) : Prop :=
  ∀ construct arms span g m', m.addGroup construct arms span = some (g, m') → g.id ∉ m.groups.map (·.id)

/-- No identifier reaches the number of groups. -/
def Numbered (m : Metadata κ) : Prop := ∀ g ∈ m.groups, g.id < m.groups.length

/-- The first and the last group with an identifier have the same construct. -/
def Consistent (m : Metadata κ) : Prop :=
  ∀ id, (m.group? id).map (·.construct) = (lastGroup? m.groups id).map (·.construct)

section Groups

variable {m : Metadata κ}

/-- The next group is new if no group has its number. -/
theorem nextIsNew_iff : m.NextIsNew ↔ ∀ g ∈ m.groups, g.id ≠ m.groups.length := by
  constructor
  · intro h g hg heq
    refine h .ifChain 1 g.span _ _ rfl ?_
    exact List.mem_map.2 ⟨g, hg, heq⟩
  · intro h construct arms span g m' hadd hmem
    rw [addGroup] at hadd
    split at hadd
    next => cases hadd
    next =>
      cases hadd
      obtain ⟨g', hg', heq⟩ := List.mem_map.1 hmem
      exact h g' hg' heq

theorem Numbered.nextIsNew (h : m.Numbered) : m.NextIsNew := nextIsNew_iff.2 fun g hg ↦ (h g hg).ne

theorem group?_concat (m : Metadata κ) (g : Group) (id : Int) :
    { m with groups := m.groups ++ [g] : Metadata κ }.group? id =
      (m.group? id).or (if g.id = id then some g else none) := by
  simp only [group?, List.find?_append, List.find?_singleton, beq_iff_eq]

theorem lastGroup?_concat (groups : List Group) (g : Group) (id : Int) :
    lastGroup? (groups ++ [g]) id = if g.id = id then some g else lastGroup? groups id := by
  rw [lastGroup?, List.reverse_concat, List.find?_cons]
  by_cases h : g.id = id
  · simp [h]
  · have hother : (g.id == id) = false := by simpa using h
    simp [h, hother, lastGroup?]

theorem group?_eq_none {id : Int} (h : lastGroup? m.groups id = none) : m.group? id = none := by
  rw [lastGroup?, List.find?_eq_none] at h
  exact List.find?_eq_none.2 fun g hg ↦ h g (List.mem_reverse.2 hg)

end Groups

variable [Kinded κ]

/-- Each line of a report on the branch entries has the construct of the group that the record finds. -/
def LookupsAgree (m : Metadata κ) : Prop :=
  ∀ raw report, analyze raw m = .ok report →
    List.Forall₂ (fun e b ↦ b.key = e.key ∧
        ∃ id g, e.group = some id ∧ m.group? id = some g ∧ b.construct = some g.construct)
      (m.entriesOf .branch) report.branches

/-! ## What one request keeps -/

section Serve

variable {m : Metadata κ}

theorem InStep.numbered_serve (h : m.InStep) (hm : m.Numbered) (r : Request κ) : (m.serve r).2.Numbered := by
  obtain heq | ⟨e, -, heq⟩ | ⟨construct, arms, span, -, -, heq⟩ := h.visible_serve r
  all_goals rw [show (m.serve r).2.Numbered ↔ (m.serve r).2.visible.Numbered from Iff.rfl, heq]
  · exact hm
  · exact hm
  · intro g hg
    simp only [List.length_append, List.length_singleton]
    rcases List.mem_append.1 hg with hg | hg
    · have := hm g hg
      omega
    · obtain rfl := List.mem_singleton.1 hg
      exact Int.lt_add_one_of_le (Int.le_refl _)

/-- A new group has an identifier of its own, so constructs stay consistent. -/
theorem InStep.consistent_serve (h : m.InStep) (hnew : m.Numbered) (hm : m.Consistent) (r : Request κ) :
    (m.serve r).2.Consistent := by
  obtain heq | ⟨e, -, heq⟩ | ⟨construct, arms, span, -, -, heq⟩ := h.visible_serve r
  all_goals rw [show (m.serve r).2.Consistent ↔ (m.serve r).2.visible.Consistent from Iff.rfl, heq]
  · exact hm
  · exact hm
  · intro id
    change ({ m.visible with groups := m.visible.groups ++ [_] : Metadata κ }.group? id).map _ =
      (lastGroup? (m.groups ++ [_]) id).map _
    rw [group?_concat, lastGroup?_concat]
    split
    next hid =>
      have hnone : m.group? id = none := by
        refine List.find?_eq_none.2 fun g hg ↦ ?_
        have hlt := hnew g hg
        rw [← hid, nextGroup, beq_iff_eq]
        exact hlt.ne
      rw [show m.visible.group? id = m.group? id from rfl, hnone]
      rfl
    next =>
      rw [Option.or_none]
      exact hm id

end Serve

/-! ## What a history keeps -/

section Runs

variable {m : Metadata κ}

theorem InStep.numbered_after (h : m.InStep) (hm : m.Numbered) (requests : List (Request κ)) :
    (m.after requests).Numbered := by
  induction requests generalizing m with
  | nil => exact hm
  | cons r requests ih => exact ih (h.serve r) (h.numbered_serve hm r)

theorem InStep.consistent_after (h : m.InStep) (hnew : m.Numbered) (hm : m.Consistent) (requests : List (Request κ)) :
    (m.after requests).Consistent := by
  induction requests generalizing m with
  | nil => exact hm
  | cons r requests ih => exact ih (h.serve r) (h.numbered_serve hnew r) (h.consistent_serve hnew hm r)

/-- A line of a report is about the last group with the identifier. -/
theorem branches_analyze {raw : Counts} {report : Report} (h : analyze raw m = .ok report) :
    List.Forall₂ (fun e b ↦ b.key = e.key ∧
        ∃ g, e.group = some b.group ∧ lastGroup? m.groups b.group = some g ∧ b.construct = some g.construct)
      (m.entriesOf .branch) report.branches := by
  have hbranches := (Report.lists_of_ok h).2.branches
  rw [Report.filter_unchecked, List.forall₂_map_left_iff] at hbranches
  refine hbranches.imp ?_
  rintro e b ⟨htells, hgroup, -, g, hlast, hconstruct⟩
  exact ⟨htells.key, g, hgroup, hlast, hconstruct⟩

theorem Consistent.lookupsAgree (h : m.Consistent) : m.LookupsAgree := by
  intro raw report hreport
  refine (branches_analyze hreport).imp ?_
  rintro e b ⟨hkey, g, hgroup, hlast, hconstruct⟩
  have hsame := h b.group
  rw [hlast] at hsame
  obtain ⟨first, hfirst, heq⟩ := Option.map_eq_some_iff.1 hsame
  exact ⟨hkey, b.group, first, hgroup, hfirst, hconstruct.trans (congrArg some heq.symm)⟩

/-- Requests for groups bring the number of groups to any larger number, and the groups that there are stay. -/
theorem exists_groups_length (m : Metadata κ) (span : Span) (k : Nat) :
    ∃ requests, m.groups <+: (m.after requests).groups ∧ (m.after requests).groups.length = m.groups.length + k := by
  induction k generalizing m with
  | zero => exact ⟨[], List.prefix_rfl, rfl⟩
  | succ k ih =>
    obtain ⟨requests, hkept, hlength⟩ :=
      ih { m with groups := m.groups ++ [m.nextGroup .ifChain 1 span] }
    refine ⟨.addGroup .ifChain 1 span :: requests, (List.prefix_append ..).trans hkept, ?_⟩
    refine hlength.trans ?_
    simp only [List.length_append, List.length_singleton]
    omega

theorem numbered_of_nextIsNew (h : ∀ requests, (m.after requests).NextIsNew) : m.Numbered := by
  intro g hg
  by_contra hlarge
  obtain ⟨requests, hkept, hlength⟩ := exists_groups_length m g.span (g.id - m.groups.length).toNat
  refine nextIsNew_iff.1 (h requests) g (hkept.subset hg) ?_
  omega

theorem exists_key_not_mem (keys : List Key) : ∃ key, key ∉ keys := by
  obtain ⟨key, hkey⟩ := Infinite.exists_notMem_finset keys.toFinset
  exact ⟨key, fun h ↦ hkey (List.mem_toFinset.2 h)⟩

theorem entriesOf_concat {e : Entry κ} {kind : Kind} (h : e.isOf kind = true) :
    { m with entries := m.entries ++ [e] : Metadata κ }.entriesOf kind = m.entriesOf kind ++ [e] := by
  simp [entriesOf, h]

/-- A report goes on with an entry that has no fault. -/
theorem exists_analyze_concat {raw : Counts} {report : Report} (h : analyze raw m = .ok report) {e : Entry κ}
    (he : Report.Sound m.groups e.unchecked) :
    ∃ report', analyze raw { m with entries := m.entries ++ [e] } = .ok report' := by
  have hsound : ∀ u ∈ (m.entries ++ [e]).map Entry.unchecked, Report.Sound m.groups u := by
    rw [List.map_append, List.map_singleton, List.forall_mem_append, List.forall_mem_singleton]
    exact ⟨(Report.lists_of_ok h).1, he⟩
  obtain ⟨report', hreport', -⟩ := (Report.analysed_ofEntries raw m.filename m.groups _).lines hsound
  exact ⟨report', hreport'⟩

theorem last_of_forall₂ {α β : Type} {R : α → β → Prop} {as init : List α} {a : α} {bs : List β}
    (has : as = init ++ [a]) (h : List.Forall₂ R as bs) : ∃ b, bs.getLast? = some b ∧ R a b := by
  rw [has, ← List.forall₂_reverse_iff, List.reverse_concat] at h
  obtain ⟨b, bs', hb, -, hbs⟩ := List.forall₂_cons_left_iff.1 h
  exact ⟨b, by rw [← List.head?_reverse, hbs, List.head?_cons], hb⟩

/-- An entry that is added for a group shows which group a report finds. -/
theorem InStep.consistent_of_lookupsAgree (h : m.InStep) {raw : Counts} {report : Report}
    (hreport : analyze raw m = .ok report) (hagree : ∀ requests, (m.after requests).LookupsAgree) : m.Consistent := by
  intro id
  cases hlast : lastGroup? m.groups id with
  | none => rw [group?_eq_none hlast]
  | some g =>
    obtain ⟨key, hkey⟩ := exists_key_not_mem m.keys
    let e : Entry κ := { key, kind := Kinded.ofKind .branch, span := g.span, group := some id, arm := some 0 }
    have hkind : e.unchecked.kind = .known .branch := Kinded.any_ofKind .branch
    have hbranch : e.isOf .branch = true := Entry.isOf_known hkind .branch
    obtain ⟨report', hreport'⟩ := exists_analyze_concat hreport (Report.sound_of_group hkind rfl rfl hlast)
    have hafter : m.after [.add e] = { m with entries := m.entries ++ [e] : Metadata κ }.indexed := by
      rw [Metadata.after, Metadata.after, Metadata.serve, h.add_of_not_mem hkey]
    have hall := hagree [.add e] raw report'
    rw [hafter] at hall
    -- The line of the entry comes last, and is about the last group as well as the first.
    obtain ⟨b, hb, -, last, hid, hlast', hconstruct⟩ :=
      last_of_forall₂ (entriesOf_concat hbranch) (branches_analyze hreport')
    obtain ⟨b', hb', -, id', first, hid', hfirst, hline⟩ :=
      last_of_forall₂ (entriesOf_concat hbranch) (hall hreport')
    obtain rfl : b = b' := Option.some.inj (hb.symm.trans hb')
    obtain rfl : id = b.group := Option.some.inj hid
    obtain rfl : b.group = id' := Option.some.inj hid'
    rw [← hlast, show m.group? b.group = some first from hfirst,
      show lastGroup? m.groups b.group = some last from hlast', Option.map_some, Option.map_some, ← hconstruct, hline]

end Runs

/-- If no identifier reaches the number of groups and groups with the same identifier agree, new groups are new and
reports find the same constructs as the record, after every history. Neither can be left out: the first is needed for
new groups, and the second for reports, if there is a report on the record at all. -/
theorem Made.groups_apart {start : Metadata κ} (h : start.Made) :
    (start.Numbered → start.Consistent →
      ∀ history, (start.after history).NextIsNew ∧ (start.after history).LookupsAgree) ∧
    ((∀ history, (start.after history).NextIsNew) → start.Numbered) ∧
    ((∃ raw report, analyze raw start = .ok report) →
      (∀ history, (start.after history).LookupsAgree) → start.Consistent) := by
  refine ⟨fun hnumbered hconsistent history ↦ ⟨?_, ?_⟩, numbered_of_nextIsNew, ?_⟩
  · exact (h.inStep.numbered_after hnumbered history).nextIsNew
  · exact (h.inStep.consistent_after hnumbered hconsistent history).lookupsAgree
  · rintro ⟨raw, report, hreport⟩ hagree
    exact h.inStep.consistent_of_lookupsAgree hreport hagree

/-- Two groups with one identifier that are both of an `if`. -/
theorem groups_apart_of_twins :
    let g : Group := ⟨0, .ifChain, 2, ⟨1, 0, 2, 4⟩⟩
    let start : Metadata Kind := { filename := "m.py", groups := [g, { g with arms := 3 }] }
    Metadata.read start.toDatum = .ok start ∧
      (∀ history, (start.after history).NextIsNew ∧ (start.after history).LookupsAgree) ∧ start.Consistent := by
  intro g start
  have hread : Metadata.read start.toDatum = .ok start := Metadata.read_toDatum (by simp [Armed, start, g])
  have hnumbered : start.Numbered := by simp [Numbered, start, g]
  have hconsistent : start.Consistent := by
    intro id
    by_cases hid : (0 : Int) = id <;> simp [group?, lastGroup?, start, g, hid]
  obtain ⟨hboth, -, hneeded⟩ := Made.groups_apart (ofKnown_self start ▸ .read hread : start.Made)
  have hagree := hboth hnumbered hconsistent
  exact ⟨hread, hagree, hneeded ⟨{}, _, rfl⟩ fun history ↦ (hagree history).2⟩

/-- A record that is read with one group, whose identifier is one: the next group has the same identifier, and then a
report does not find the group that the record finds. -/
theorem next_group_taken :
    let start : Metadata Kind := { filename := "m.py", groups := [⟨1, .ifChain, 2, ⟨1, 0, 2, 4⟩⟩] }
    let e : Entry Kind := { key := "b", kind := .branch, span := ⟨4, 2, 4, 6⟩, group := some 1, arm := some 0 }
    Metadata.read start.toDatum = .ok start ∧ ¬ start.NextIsNew ∧
      ¬ (start.after [.addGroup .whileLoop 1 ⟨3, 0, 4, 6⟩, .add e]).LookupsAgree := by
  intro start e
  refine ⟨Metadata.read_toDatum (by simp [Armed, start]), ?_, ?_⟩
  · simp [nextIsNew_iff, start]
  · intro hagree
    obtain ⟨⟨-, id, g, hid, hfirst, hconstruct⟩, -⟩ := List.forall₂_cons.1 (hagree {} _ rfl)
    obtain rfl : 1 = id := Option.some.inj hid
    obtain rfl : (⟨1, .ifChain, 2, ⟨1, 0, 2, 4⟩⟩ : Group) = g := Option.some.inj hfirst
    cases hconstruct

end Coverage.Metadata
