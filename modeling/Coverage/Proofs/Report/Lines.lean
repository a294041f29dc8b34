import Mathlib.Data.List.Forall2
import Coverage.Report

/-!
# The lines of a report

A report is made entry by entry, whoever made the record and whatever kinds its entries have. One entry either adds its
own line behind the lines of its kind or has a fault that ends the report. So there is a report exactly if no entry has
a fault, with one line for each entry in the order of the record, and otherwise the first fault is reported.
-/

namespace Coverage

theorem Entry.isOf_known {e : Entry AnyKind} {k : Kind} (h : e.kind = .known k) (kind : Kind) :
    e.isOf kind = (k == kind) := by
  rw [Entry.isOf, show Kinded.any e.kind = .known k from h]

namespace Report

/-- What can be wrong with an entry. Only branch entries need a group. -/
inductive Faulty (groups : List Group) (e : Entry AnyKind) : Malformed → Prop
  | unknownKind {kind : Datum} (hkind : e.kind = .unknown kind) : Faulty groups e (.unknownKind e.key kind)
  | noGroup (hkind : e.kind = .known .branch) (hmissing : e.group = none ∨ e.arm = none) :
    Faulty groups e (.noGroup e.key)
  | unknownGroup {id arm : Int} (hkind : e.kind = .known .branch) (hgroup : e.group = some id)
    (harm : e.arm = some arm) (hnone : ∀ g ∈ groups, g.id ≠ id) : Faulty groups e (.unknownGroup e.key id)

def Sound (groups : List Group) (e : Entry AnyKind) : Prop := ∀ fault, ¬Faulty groups e fault

/-- The fault of the first entry that has one. -/
def FirstFault (groups : List Group) (entries : List (Entry AnyKind)) (fault : Malformed) : Prop :=
  ∃ before e after, entries = before ++ e :: after ∧ (∀ b ∈ before, Sound groups b) ∧ Faulty groups e fault

/-- What the lines of all kinds say about their entries. A key that was not counted has the count zero. -/
structure Tells (raw : Counts) (e : Entry AnyKind) (r : Record) : Prop where
  key : r.key = e.key
  span : r.span = e.span
  count : r.count = (raw.get? e.key).getD 0

/-- A report has one line for each entry of `entries`, among those of its kind. -/
structure Lists (raw : Counts) (groups : List Group) (entries : List (Entry AnyKind)) (report : Report) : Prop where
  statements : List.Forall₂ (Tells raw) (entries.filter (·.isOf .statement)) report.statements
  branches : List.Forall₂ (fun e b ↦ Tells raw e b.toRecord ∧ e.group = some b.group ∧ e.arm = some b.arm ∧
      ∃ g, lastGroup? groups b.group = some g ∧ b.construct = some g.construct)
    (entries.filter (·.isOf .branch)) report.branches
  functions : List.Forall₂ (fun e f ↦ Tells raw e f.toRecord ∧ f.name = functionName e.name)
    (entries.filter (·.isOf .function)) report.functions

/-- The lines of two reports on one file. -/
def append (r r' : Report) : Report where
  filename := r.filename
  statements := r.statements ++ r'.statements
  branches := r.branches ++ r'.branches
  functions := r.functions ++ r'.functions

variable {raw raw' : Counts} {groups : List Group} {entries entries' : List (Entry AnyKind)} {e : Entry AnyKind}
  {r r' report : Report} {fault fault' : Malformed}

/-! ## Faults -/

/-- An entry has one fault at most. -/
theorem Faulty.unique (h : Faulty groups e fault) (h' : Faulty groups e fault') : fault = fault' := by
  cases h <;> cases h' <;> simp_all

theorem lastGroup?_eq_none {id : Int} : lastGroup? groups id = none ↔ ∀ g ∈ groups, g.id ≠ id := by
  simp [lastGroup?, List.find?_eq_none]

theorem firstFault_nil : ¬FirstFault groups [] fault := by
  rintro ⟨before, e, after, heq, -⟩
  cases before <;> cases heq

/-- The first fault is that of the first entry, or comes later. -/
theorem firstFault_cons : FirstFault groups (e :: entries) fault ↔
    Faulty groups e fault ∨ Sound groups e ∧ FirstFault groups entries fault := by
  constructor
  · rintro ⟨before, e', after, heq, hsound, hfault⟩
    cases before with
    | nil =>
      cases heq
      exact .inl hfault
    | cons b before =>
      cases heq
      obtain ⟨hb, hbefore⟩ := List.forall_mem_cons.1 hsound
      exact .inr ⟨hb, before, e', after, rfl, hbefore, hfault⟩
  · rintro (hfault | ⟨he, before, e', after, rfl, hsound, hfault⟩)
    · exact ⟨[], e, entries, rfl, by simp, hfault⟩
    · exact ⟨e :: before, e', after, rfl, List.forall_mem_cons.2 ⟨he, hsound⟩, hfault⟩

/-- Some entry has a fault exactly if there is a first one. -/
theorem exists_firstFault_iff :
    (∃ fault, FirstFault groups entries fault) ↔ ∃ e ∈ entries, ∃ fault, Faulty groups e fault := by
  induction entries with
  | nil => simp [firstFault_nil]
  | cons e entries ih =>
    simp only [firstFault_cons, List.exists_mem_cons_iff, exists_or, exists_and_left, ih]
    by_cases he : ∃ fault, Faulty groups e fault
    · simp [he]
    · simp [Sound, not_exists.1 he]

/-! ## Lines -/

theorem lists_nil (filename : String) : Lists raw groups [] { filename } := ⟨.nil, .nil, .nil⟩

theorem Lists.append (h : Lists raw groups entries r) (h' : Lists raw groups entries' r') :
    Lists raw groups (entries ++ entries') (r.append r') where
  statements := by
    rw [List.filter_append]
    exact List.rel_append h.statements h'.statements
  branches := by
    rw [List.filter_append]
    exact List.rel_append h.branches h'.branches
  functions := by
    rw [List.filter_append]
    exact List.rel_append h.functions h'.functions

/-- Every sound entry is of one kind. -/
theorem length_isOf (h : ∀ e ∈ entries, Sound groups e) :
    (entries.filter (·.isOf .statement)).length + (entries.filter (·.isOf .branch)).length +
      (entries.filter (·.isOf .function)).length = entries.length := by
  induction entries with
  | nil => rfl
  | cons e entries ih =>
    obtain ⟨he, hrest⟩ := List.forall_mem_cons.1 h
    cases hkind : e.kind with
    | unknown kind => exact absurd (.unknownKind hkind) (he _)
    | known kind =>
      have hsum := ih hrest
      cases kind <;> simp [Entry.isOf_known hkind] at hsum ⊢ <;> omega

/-- No entry is lost and none is listed twice. -/
theorem Lists.length (h : Lists raw groups entries report) (hsound : ∀ e ∈ entries, Sound groups e) :
    report.statements.length + report.branches.length + report.functions.length = entries.length := by
  rw [← h.statements.length_eq, ← h.branches.length_eq, ← h.functions.length_eq]
  exact length_isOf hsound

/-! ## One entry -/

/-- A branch entry has a line if it has a group and an arm and the group is known. -/
theorem branchRecord_cases (hkind : e.kind = .known .branch) (count : Int) :
    (∃ fault, Faulty groups e fault ∧ branchRecord groups e count = .error fault) ∨
      ∃ id arm g, e.group = some id ∧ e.arm = some arm ∧ lastGroup? groups id = some g ∧
        branchRecord groups e count = .ok ⟨⟨e.key, e.span, count⟩, id, arm, some g.construct⟩ := by
  cases hgroup : e.group with
  | none => exact .inl ⟨_, .noGroup hkind (.inl hgroup), by simp [branchRecord, hgroup]⟩
  | some id =>
    cases harm : e.arm with
    | none => exact .inl ⟨_, .noGroup hkind (.inr harm), by simp [branchRecord, hgroup, harm]⟩
    | some arm =>
      cases hlast : lastGroup? groups id with
      | none =>
        refine .inl ⟨_, .unknownGroup hkind hgroup harm (lastGroup?_eq_none.1 hlast), ?_⟩
        simp [branchRecord, hgroup, harm, hlast]
      | some g => exact .inr ⟨id, arm, g, rfl, rfl, hlast, by simp [branchRecord, hgroup, harm, hlast]⟩

theorem sound_of_known {kind : Kind} (hkind : e.kind = .known kind) (hother : kind ≠ .branch) : Sound groups e := by
  rintro _ (h | h | h) <;> simp_all

theorem sound_of_group {id arm : Int} {g : Group} (hkind : e.kind = .known .branch) (hgroup : e.group = some id)
    (harm : e.arm = some arm) (hlast : lastGroup? groups id = some g) : Sound groups e := by
  rintro _ (h | h | ⟨-, hid, -, hnone⟩)
  · simp_all
  · simp_all
  · rw [hgroup, Option.some.injEq] at hid
    rw [← hid, ← lastGroup?_eq_none, hlast] at hnone
    cases hnone

/-- One entry ends the report with its fault or adds its line. -/
theorem addEntry_cases (raw : Counts) (groups : List Group) (r : Report) (e : Entry AnyKind) :
    (∃ fault, Faulty groups e fault ∧ addEntry raw groups r e = .error fault) ∨
      Sound groups e ∧ ∃ line, Lists raw groups [e] line ∧ addEntry raw groups r e = .ok (r.append line) := by
  let line : Record := ⟨e.key, e.span, (raw.get? e.key).getD 0⟩
  have htells : Tells raw e line := ⟨rfl, rfl, rfl⟩
  cases hkind : e.kind with
  | unknown kind => exact .inl ⟨_, .unknownKind hkind, by rw [addEntry, hkind]⟩
  | known kind =>
    cases kind with
    | statement =>
      refine .inr ⟨sound_of_known hkind (by decide), ⟨r.filename, [line], [], []⟩, ⟨?_, ?_, ?_⟩, ?_⟩
      · simpa [Entry.isOf_known hkind] using htells
      · simp [Entry.isOf_known hkind]
      · simp [Entry.isOf_known hkind]
      · simp [addEntry, hkind, append, line]
    | function =>
      refine .inr ⟨sound_of_known hkind (by decide), ⟨r.filename, [], [], [⟨line, functionName e.name⟩]⟩,
        ⟨?_, ?_, ?_⟩, ?_⟩
      · simp [Entry.isOf_known hkind]
      · simp [Entry.isOf_known hkind]
      · simpa [Entry.isOf_known hkind] using htells
      · simp [addEntry, hkind, append, line]
    | branch =>
      rcases branchRecord_cases hkind ((raw.get? e.key).getD 0) with
        ⟨fault, hfault, hline⟩ | ⟨id, arm, g, hgroup, harm, hlast, hline⟩
      · exact .inl ⟨fault, hfault, by simp [addEntry, hkind, hline, bind, Except.bind]⟩
      · refine .inr ⟨sound_of_group hkind hgroup harm hlast,
          ⟨r.filename, [], [⟨line, id, arm, some g.construct⟩], []⟩, ⟨?_, ?_, ?_⟩, ?_⟩
        · simp [Entry.isOf_known hkind]
        · simpa [Entry.isOf_known hkind] using ⟨htells, hgroup, harm, g, hlast, rfl⟩
        · simp [Entry.isOf_known hkind]
        · simp [addEntry, hkind, hline, append, line, bind, Except.bind, pure, Except.pure]

/-- Of the counts, only the one of its own key matters to an entry. -/
theorem addEntry_congr (h : (raw.get? e.key).getD 0 = (raw'.get? e.key).getD 0) (r : Report) :
    addEntry raw groups r e = addEntry raw' groups r e := by
  unfold addEntry
  rw [h]

/-! ## All entries -/

/-- A report fails with the first fault. -/
theorem foldlM_addEntry_eq_error :
    entries.foldlM (addEntry raw groups) r = .error fault ↔ FirstFault groups entries fault := by
  induction entries generalizing r with
  | nil => exact ⟨nofun, fun h ↦ absurd h firstFault_nil⟩
  | cons e entries ih =>
    rw [List.foldlM_cons, firstFault_cons]
    rcases addEntry_cases raw groups r e with ⟨fault', hfault, hadd⟩ | ⟨hsound, line, -, hadd⟩
    · have hiff : fault' = fault ↔ Faulty groups e fault := ⟨fun h ↦ h ▸ hfault, hfault.unique⟩
      have hunsound : ¬Sound groups e := fun h ↦ h _ hfault
      simp [hadd, bind, Except.bind, hiff, hunsound]
    · have hrest := ih (r := r.append line)
      simpa [hadd, bind, Except.bind, hsound, hsound fault] using hrest

/-- Without faults, all lines are added. -/
theorem foldlM_addEntry_of_sound (raw : Counts) (h : ∀ e ∈ entries, Sound groups e) (r : Report) :
    ∃ lines, Lists raw groups entries lines ∧ entries.foldlM (addEntry raw groups) r = .ok (r.append lines) := by
  induction entries generalizing r with
  | nil => exact ⟨{ filename := r.filename }, lists_nil _, by simp [append, pure, Except.pure]⟩
  | cons e entries ih =>
    obtain ⟨he, hrest⟩ := List.forall_mem_cons.1 h
    rcases addEntry_cases raw groups r e with ⟨fault, hfault, -⟩ | ⟨-, line, hline, hadd⟩
    · exact absurd hfault (he fault)
    · obtain ⟨lines, hlines, hall⟩ := ih hrest (r.append line)
      refine ⟨line.append lines, hline.append hlines, ?_⟩
      rw [List.foldlM_cons, hadd]
      refine hall.trans ?_
      simp [append, List.append_assoc]

theorem foldlM_addEntry_congr (h : ∀ e ∈ entries, (raw.get? e.key).getD 0 = (raw'.get? e.key).getD 0) (r : Report) :
    entries.foldlM (addEntry raw groups) r = entries.foldlM (addEntry raw' groups) r := by
  induction entries generalizing r with
  | nil => rfl
  | cons e entries ih =>
    obtain ⟨he, hrest⟩ := List.forall_mem_cons.1 h
    rw [List.foldlM_cons, List.foldlM_cons, addEntry_congr he]
    exact bind_congr fun r ↦ ih hrest r

/-- What becomes of the counts `raw` of a file and the entries of its record. -/
structure Analysed (raw : Counts) (filename : String) (groups : List Group) (entries : List (Entry AnyKind))
    (result : Except Malformed Report) : Prop where
  fails : (∃ fault, result = .error fault) ↔ ∃ e ∈ entries, ∃ fault, Faulty groups e fault
  first : ∀ fault, result = .error fault ↔ FirstFault groups entries fault
  lines : (∀ e ∈ entries, Sound groups e) → ∃ report, result = .ok report ∧ report.filename = filename ∧
    Lists raw groups entries report ∧
    report.statements.length + report.branches.length + report.functions.length = entries.length

theorem analysed_ofEntries (raw : Counts) (filename : String) (groups : List Group)
    (entries : List (Entry AnyKind)) :
    Analysed raw filename groups entries (ofEntries raw filename groups entries) where
  fails := by
    rw [← exists_firstFault_iff]
    exact exists_congr fun fault ↦ foldlM_addEntry_eq_error
  first fault := foldlM_addEntry_eq_error
  lines hsound := by
    obtain ⟨report, hlists, hreport⟩ := foldlM_addEntry_of_sound raw hsound { filename }
    refine ⟨append { filename } report, hreport, rfl, ?_, ?_⟩
    · exact (lists_nil filename).append hlists
    · exact ((lists_nil filename).append hlists).length hsound

/-- What a report lists, if there is one. -/
theorem lists_of_ok {filename : String} (h : ofEntries raw filename groups entries = .ok report) :
    (∀ e ∈ entries, Sound groups e) ∧ Lists raw groups entries report := by
  have hanalysed := analysed_ofEntries raw filename groups entries
  have hsound : ∀ e ∈ entries, Sound groups e := by
    intro e he fault hfault
    obtain ⟨_, herror⟩ := hanalysed.fails.2 ⟨e, he, fault, hfault⟩
    rw [h] at herror
    cases herror
  obtain ⟨report', hok, -, hlists, -⟩ := hanalysed.lines hsound
  obtain rfl : report = report' := Except.ok.inj (h.symm.trans hok)
  exact ⟨hsound, hlists⟩

theorem filter_unchecked {κ : Type} [Kinded κ] (entries : List (Entry κ)) (kind : Kind) :
    (entries.map Entry.unchecked).filter (·.isOf kind) = (entries.filter (·.isOf kind)).map Entry.unchecked :=
  List.filter_map

end Report

/-- Reports on unchecked entries, on a record and on a ledger: each fails exactly if some entry has a fault, with the
first fault, and otherwise has one line for each entry in the order of the record. Counts of other keys do not matter.
-/
theorem report_lists_entries (raw : Counts) :
    (∀ filename groups entries, Report.Analysed raw filename groups entries
      (Report.ofEntries raw filename groups entries)) ∧
    (∀ (κ : Type) [Kinded κ] (m : Metadata κ), Report.Analysed raw m.filename m.groups
      (m.entries.map Entry.unchecked) (analyze raw m)) ∧
    (∀ (κ : Type) [Kinded κ] (l : Ledger) (m : Metadata κ), Report.Analysed (l.forFile m.filename) m.filename
      m.groups (m.entries.map Entry.unchecked) (analyzeLedger l m)) ∧
    (∀ raw' filename groups entries, (∀ e ∈ entries, (raw.get? e.key).getD 0 = (raw'.get? e.key).getD 0) →
      Report.ofEntries raw filename groups entries = Report.ofEntries raw' filename groups entries) ∧
    ∀ (κ : Type) [Kinded κ] (raw' : Counts) (m : Metadata κ),
      (∀ key ∈ m.keys, (raw.get? key).getD 0 = (raw'.get? key).getD 0) → analyze raw m = analyze raw' m := by
  refine ⟨Report.analysed_ofEntries raw, fun κ _ m ↦ ?_, fun κ _ l m ↦ ?_, fun raw' filename groups entries h ↦ ?_,
    fun κ _ raw' m h ↦ ?_⟩
  · exact Report.analysed_ofEntries raw m.filename m.groups _
  · exact Report.analysed_ofEntries (l.forFile m.filename) m.filename m.groups _
  · exact Report.foldlM_addEntry_congr h _
  · refine Report.foldlM_addEntry_congr (fun e he ↦ ?_) _
    obtain ⟨e', he', rfl⟩ := List.mem_map.1 he
    exact h _ (List.mem_map_of_mem he')

/-- A report on entries of all kinds, one of them twice, and on entries of which two have a fault. -/
theorem report_lists_entries_of_mixed :
    let span : Span := ⟨1, 0, 2, 4⟩
    let raw : Counts := .ofList [("s", 2), ("x", 7)]
    let s : Entry Kind := { key := "s", kind := .statement, span }
    let b : Entry Kind := { key := "b", kind := .branch, span, group := some 0, arm := some 1 }
    let f : Entry Kind := { key := "f", kind := .function, span }
    let odd : Entry AnyKind := { key := "o", kind := .unknown (.str "loop"), span }
    let m : Metadata Kind := { filename := "m.py", entries := [s, b, f, s], groups := [⟨0, .ifChain, 2, span⟩] }
    (∃ report, analyze raw m = .ok report ∧
      report.statements.length + report.branches.length + report.functions.length = 4) ∧
    Report.ofEntries raw "m.py" [] [s.unchecked, b.unchecked, odd] = .error (.unknownGroup "b" 0) ∧
    analyze raw m = analyze (.ofList [("s", 2)]) m := by
  intro span raw s b f odd m
  obtain ⟨hentries, hrecord, -, -, hcongr⟩ := report_lists_entries raw
  refine ⟨?_, ?_, ?_⟩
  · have hsound : ∀ e ∈ m.entries.map Entry.unchecked, Report.Sound m.groups e := by
      simp only [m, List.map_cons, List.map_nil, List.forall_mem_cons]
      exact ⟨Report.sound_of_known rfl nofun, Report.sound_of_group rfl rfl rfl rfl, Report.sound_of_known rfl nofun,
        Report.sound_of_known rfl nofun, List.forall_mem_nil _⟩
    obtain ⟨report, hreport, -, -, hlength⟩ := (hrecord Kind m).lines hsound
    exact ⟨report, hreport, hlength⟩
  · refine ((hentries "m.py" [] [s.unchecked, b.unchecked, odd]).first _).2
      ⟨[s.unchecked], b.unchecked, [odd], rfl, ?_, ?_⟩
    · exact List.forall_mem_singleton.2 (Report.sound_of_known rfl nofun)
    · exact .unknownGroup rfl rfl rfl (List.forall_mem_nil _)
  · refine hcongr Kind _ m ?_
    decide

end Coverage
