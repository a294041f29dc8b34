import Mathlib.Data.List.Nodup
import Coverage.Proofs.Metadata.Data
import Coverage.Report

/-!
# Histories of records

A record starts without an index, as it is built or read, and then serves requests. Whatever the requests are and
whatever kinds the entries have, its index stays in step with its entries, so two records that look the same answer the
same. Looking up a key finds the last entry with it, an entry is refused exactly if its key is taken, and entries stay
where they are.
-/

namespace Coverage.Metadata

variable {κ : Type}

/-- What a record can be asked. -/
inductive Request (κ : Type) where
  | add (e : Entry κ)
  | addGroup (construct : Construct) (arms : Int) (span : Span)
  | get (key : Key)
  | keys
  | entriesOf (kind : Kind)
  | group (id : Int)
  | analyze (raw : Counts)
  /-- Puts an entry at the end of the list past the record, so that the index does not know of it. -/
  | append (e : Entry κ)

/-- What a record answers. -/
inductive Answer (κ : Type) where
  | added (accepted : Bool)
  | group (g : Option Group)
  | entry (e : Option (Entry κ))
  | keys (keys : List Key)
  | entries (entries : List (Entry κ))
  | report (r : Except Malformed Report)
  | nothing

variable [Kinded κ]

/-- The answer to a request, and the record afterwards. -/
def serve (m : Metadata κ) : Request κ → Answer κ × Metadata κ
  | .add e => (.added (m.add e).1, (m.add e).2)
  | .addGroup construct arms span =>
    match m.addGroup construct arms span with
    | some (g, m) => (.group (some g), m)
    | none => (.group none, m)
  | .get key => (.entry (m.get key).1, (m.get key).2)
  | .keys => (.keys m.keys, m)
  | .entriesOf kind => (.entries (m.entriesOf kind), m)
  | .group id => (.group (m.group? id), m)
  | .analyze raw => (.report (Coverage.analyze raw m), m)
  | .append e => (.nothing, { m with entries := m.entries ++ [e] })

def after (m : Metadata κ) : List (Request κ) → Metadata κ
  | [] => m
  | r :: rs => (m.serve r).2.after rs

def answers (m : Metadata κ) : List (Request κ) → List (Answer κ)
  | [] => []
  | r :: rs => (m.serve r).1 :: (m.serve r).2.answers rs

/-- A record whose kinds are known, among records of any kinds. -/
def ofKnown (m : Metadata Kind) : Metadata κ where
  filename := m.filename
  entries := m.entries.map fun e ↦ ⟨e.key, Kinded.ofKind e.kind, e.span, e.group, e.arm, e.name⟩
  groups := m.groups
  index := m.index

@[simp]
theorem ofKnown_self (m : Metadata Kind) : ofKnown m = m := by
  simp [ofKnown, Kinded.ofKind]

/-- A record as it is at first: built from parts, where every group has an arm, or read from data. -/
inductive Made : Metadata κ → Prop
  | built {filename entries groups} (armed : ∀ g ∈ groups, 1 ≤ g.arms) : Made { filename, entries, groups }
  | read {d m} (h : Metadata.read d = .ok m) : Made (ofKnown m)

/-- Nothing that can be seen or asked tells two records apart. -/
structure Interchangeable (m n : Metadata κ) : Prop where
  visible : m.visible = n.visible
  answers : ∀ requests, m.answers requests = n.answers requests

theorem Made.visible_eq {m : Metadata κ} (h : m.Made) : m.visible = m := by
  cases h with
  | built => rfl
  | read h => rw [ofKnown, ← visible_of_read h, visible, visible]

theorem Made.inStep {m : Metadata κ} (h : m.Made) : m.InStep := by
  rw [← h.visible_eq]
  exact inStep_visible m

theorem Made.armed {m : Metadata κ} (h : m.Made) : m.Armed := by
  cases h with
  | built armed => exact armed
  | read h => exact armed_of_read h

/-! ## One request -/

section Serve

variable {m n : Metadata κ} {r : Request κ}

/-- A record in step stays so. -/
theorem InStep.serve (h : m.InStep) (r : Request κ) : (m.serve r).2.InStep := by
  cases r with
  | add e =>
    by_cases hkey : e.key ∈ m.keys
    · rw [Metadata.serve, h.add_of_mem hkey]
      exact inStep_indexed m
    · rw [Metadata.serve, h.add_of_not_mem hkey]
      exact inStep_indexed _
  | addGroup construct arms span =>
    by_cases harms : arms < 1
    · rw [Metadata.serve, addGroup, if_pos harms]
      exact h
    · rw [Metadata.serve, addGroup, if_neg harms]
      exact h
  | get key =>
    rw [Metadata.serve, h.get_eq]
    exact inStep_indexed m
  | append e =>
    obtain ⟨done, hdone, hindex⟩ := h
    exact ⟨done, hdone.trans (List.prefix_append ..), hindex⟩
  | keys | entriesOf _ | group _ | analyze _ => exact h

/-- What a request changes: a free key or an append brings an entry, a group with arms comes last, and that is all. -/
theorem InStep.visible_serve (h : m.InStep) (r : Request κ) :
    (m.serve r).2.visible = m.visible ∨
    (∃ e, (r = .append e ∨ r = .add e ∧ e.key ∉ m.keys) ∧
      (m.serve r).2.visible = { m.visible with entries := m.entries ++ [e] }) ∨
    ∃ construct arms span, r = .addGroup construct arms span ∧ 1 ≤ arms ∧
      (m.serve r).2.visible = { m.visible with groups := m.groups ++ [m.nextGroup construct arms span] } := by
  cases r with
  | add e =>
    by_cases hkey : e.key ∈ m.keys
    · rw [Metadata.serve, h.add_of_mem hkey]
      exact .inl rfl
    · rw [Metadata.serve, h.add_of_not_mem hkey]
      exact .inr (.inl ⟨e, .inr ⟨rfl, hkey⟩, rfl⟩)
  | addGroup construct arms span =>
    by_cases harms : arms < 1
    · rw [Metadata.serve, addGroup, if_pos harms]
      exact .inl rfl
    · rw [Metadata.serve, addGroup, if_neg harms]
      exact .inr (.inr ⟨construct, arms, span, rfl, Int.not_lt.1 harms, rfl⟩)
  | get key =>
    rw [Metadata.serve, h.get_eq]
    exact .inl rfl
  | append e => exact .inr (.inl ⟨e, .inl rfl, rfl⟩)
  | keys | entriesOf _ | group _ | analyze _ => exact .inl rfl

/-- Records in step that look the same answer the same, and look the same afterwards. -/
theorem InStep.serve_congr (hm : m.InStep) (hn : n.InStep) (h : m.visible = n.visible) (r : Request κ) :
    (m.serve r).1 = (n.serve r).1 ∧ (m.serve r).2.visible = (n.serve r).2.visible := by
  obtain ⟨filename, entries, groups, index⟩ := m
  obtain ⟨_, _, _, index'⟩ := n
  cases h
  cases r with
  | add e =>
    by_cases hkey : e.key ∈ entries.map (·.key)
    · rw [Metadata.serve, Metadata.serve, hm.add_of_mem hkey, hn.add_of_mem hkey]
      exact ⟨rfl, rfl⟩
    · rw [Metadata.serve, Metadata.serve, hm.add_of_not_mem hkey, hn.add_of_not_mem hkey]
      exact ⟨rfl, rfl⟩
  | addGroup construct arms span =>
    by_cases harms : arms < 1
    · rw [Metadata.serve, Metadata.serve, addGroup, addGroup, if_pos harms, if_pos harms]
      exact ⟨rfl, rfl⟩
    · rw [Metadata.serve, Metadata.serve, addGroup, addGroup, if_neg harms, if_neg harms]
      exact ⟨rfl, rfl⟩
  | get key =>
    rw [Metadata.serve, Metadata.serve, hm.get_eq, hn.get_eq]
    exact ⟨rfl, rfl⟩
  | append | keys | entriesOf _ | group _ | analyze _ => exact ⟨rfl, rfl⟩

/-- Requests leave the entries that there are where they are. -/
theorem InStep.entries_serve (h : m.InStep) (r : Request κ) : m.entries <+: (m.serve r).2.entries := by
  obtain heq | ⟨e, -, heq⟩ | ⟨construct, arms, span, -, -, heq⟩ := h.visible_serve r
  all_goals rw [show (m.serve r).2.entries = (m.serve r).2.visible.entries from rfl, heq]
  · exact List.prefix_rfl
  · exact List.prefix_append ..
  · exact List.prefix_rfl

/-- Keys that are told apart stay so, as long as no entry is put past the record. -/
theorem InStep.nodup_serve (h : m.InStep) (hkeys : m.keys.Nodup) (hr : ∀ e, r ≠ .append e) :
    (m.serve r).2.keys.Nodup := by
  obtain heq | ⟨e, hadd, heq⟩ | ⟨construct, arms, span, -, -, heq⟩ := h.visible_serve r
  all_goals rw [show (m.serve r).2.keys = (m.serve r).2.visible.keys from rfl, heq]
  · exact hkeys
  · obtain happend | ⟨-, hfree⟩ := hadd
    · exact absurd happend (hr e)
    · rw [keys, List.map_append, List.map_singleton, ← List.concat_eq_append]
      exact List.Nodup.concat hfree hkeys
  · exact hkeys

theorem InStep.armed_serve (h : m.InStep) (harmed : m.Armed) (r : Request κ) : (m.serve r).2.Armed := by
  obtain heq | ⟨e, -, heq⟩ | ⟨construct, arms, span, -, hone, heq⟩ := h.visible_serve r
  all_goals rw [show (m.serve r).2.Armed ↔ (m.serve r).2.visible.Armed from Iff.rfl, heq]
  · exact harmed
  · exact harmed
  · intro g hg
    rcases List.mem_append.1 hg with hg | hg
    · exact harmed g hg
    · rw [List.mem_singleton.1 hg]
      exact hone

end Serve

/-! ## All requests -/

section Runs

variable {m n : Metadata κ} {requests : List (Request κ)}

theorem InStep.after (h : m.InStep) (requests : List (Request κ)) : (m.after requests).InStep := by
  induction requests generalizing m with
  | nil => exact h
  | cons r requests ih => exact ih (h.serve r)

theorem InStep.entries_after (h : m.InStep) (requests : List (Request κ)) :
    m.entries <+: (m.after requests).entries := by
  induction requests generalizing m with
  | nil => exact List.prefix_rfl
  | cons r requests ih => exact (h.entries_serve r).trans (ih (h.serve r))

theorem InStep.nodup_after (h : m.InStep) (hkeys : m.keys.Nodup) (hrequests : ∀ e, .append e ∉ requests) :
    (m.after requests).keys.Nodup := by
  induction requests generalizing m with
  | nil => exact hkeys
  | cons r requests ih =>
    have hfirst : ∀ e, r ≠ .append e := fun e heq ↦ hrequests e (heq ▸ List.mem_cons_self)
    exact ih (h.serve r) (h.nodup_serve hkeys hfirst) fun e he ↦ hrequests e (List.mem_cons_of_mem _ he)

theorem InStep.armed_after (h : m.InStep) (harmed : m.Armed) (requests : List (Request κ)) :
    (m.after requests).Armed := by
  induction requests generalizing m with
  | nil => exact harmed
  | cons r requests ih => exact ih (h.serve r) (h.armed_serve harmed r)

theorem after_append (m : Metadata κ) (earlier later : List (Request κ)) :
    m.after (earlier ++ later) = (m.after earlier).after later := by
  induction earlier generalizing m with
  | nil => rfl
  | cons r earlier ih => exact ih _

/-- Records in step that look the same answer everything the same. -/
theorem InStep.interchangeable (hm : m.InStep) (hn : n.InStep) (h : m.visible = n.visible) :
    m.Interchangeable n where
  visible := h
  answers requests := by
    induction requests generalizing m n with
    | nil => rfl
    | cons r requests ih =>
      obtain ⟨hanswer, hvisible⟩ := hm.serve_congr hn h r
      rw [Metadata.answers, Metadata.answers, hanswer, ih (hm.serve r) (hn.serve r) hvisible]

end Runs

/-! ## Growth -/

/-- One record has come from another by requests. -/
def Grown (m n : Metadata κ) : Prop := ∃ requests, n = m.after requests

namespace Grown

variable {m n o : Metadata κ}

theorem refl (m : Metadata κ) : m.Grown m := ⟨[], rfl⟩

theorem trans (hmn : m.Grown n) (hno : n.Grown o) : m.Grown o := by
  obtain ⟨earlier, rfl⟩ := hmn
  obtain ⟨later, rfl⟩ := hno
  exact ⟨earlier ++ later, (after_append m earlier later).symm⟩

theorem add (m : Metadata κ) (e : Entry κ) : m.Grown (m.add e).2 := ⟨[.add e], rfl⟩

theorem addGroup {construct : Construct} {arms : Int} {span : Span} {g : Group}
    (h : m.addGroup construct arms span = some (g, n)) : m.Grown n :=
  ⟨[.addGroup construct arms span], by simp [after, serve, h]⟩

end Grown

/-! ## Keys -/

/-- What a record keeps to with regard to keys. -/
structure KeepsKeys (m : Metadata κ) : Prop where
  /-- A look-up finds the last entry with a key. -/
  found : ∀ key e, (m.get key).1 = some e ↔
    e.key = key ∧ ∃ before after, m.entries = before ++ e :: after ∧ key ∉ after.map (·.key)
  missing : ∀ key, (m.get key).1 = none ↔ key ∉ m.keys
  /-- An entry is refused if its key is taken, and then nothing has changed. -/
  refused : ∀ e, (m.add e).1 = false ∧ (m.add e).2.Interchangeable m ↔ e.key ∈ m.keys
  /-- Any other entry comes last. -/
  appended : ∀ e, e.key ∉ m.keys →
    (m.add e).1 = true ∧ (m.add e).2.Interchangeable { m with entries := m.entries ++ [e] }
  /-- Entries stay where they are. -/
  kept : ∀ later, m.entries <+: (m.after later).entries

/-- A record in step keeps to its keys. -/
theorem InStep.keepsKeys {m : Metadata κ} (h : m.InStep) : m.KeepsKeys where
  found key e := by
    rw [h.get_eq]
    exact latest?_eq_some_iff
  missing key := by
    rw [h.get_eq]
    exact latest?_eq_none_iff
  refused e := by
    refine ⟨fun ⟨hrefused, _⟩ ↦ by_contra fun hfree ↦ ?_, fun htaken ↦ ?_⟩
    · rw [h.add_of_not_mem hfree] at hrefused
      cases hrefused
    · rw [h.add_of_mem htaken]
      exact ⟨rfl, (inStep_indexed m).interchangeable h rfl⟩
  appended e hfree := by
    rw [h.add_of_not_mem hfree]
    exact ⟨rfl, (inStep_indexed _).interchangeable (h.serve (.append e)) rfl⟩
  kept := h.entries_after

/-- However a record came about and whatever it was asked, it keeps to its keys. If entries come only through the
record, keys that were told apart at first stay so. -/
theorem Made.keepsKeys_after {start : Metadata κ} (h : start.Made) (history : List (Request κ)) :
    (start.after history).KeepsKeys ∧
      (start.keys.Nodup → (∀ e, .append e ∉ history) → (start.after history).keys.Nodup) :=
  ⟨(h.inStep.after history).keepsKeys, fun hkeys hadds ↦ h.inStep.nodup_after hkeys hadds⟩

/-- A record that is read with two entries of the same key, is then given one of an unknown kind past its index, and is
asked for another with that key. -/
theorem keepsKeys_after_of_repeated_key :
    let e : Entry Kind := ⟨"k", .statement, ⟨1, 0, 1, 4⟩, none, none, none⟩
    let read : Metadata Kind := { filename := "m.py", entries := [e, { e with name := some "f" }] }
    let start : Metadata AnyKind := ofKnown read
    let odd : Entry AnyKind := { e.unchecked with key := "l", kind := .unknown (.str "loop") }
    let history : List (Request AnyKind) := [.get "k", .append odd, .add { odd with arm := some 0 }]
    Metadata.read read.toDatum = .ok read ∧ ¬ start.keys.Nodup ∧ (start.after history).KeepsKeys ∧
      (start.keys.Nodup → (∀ e, .append e ∉ history) → (start.after history).keys.Nodup) := by
  intro e read start odd history
  have hread : Metadata.read read.toDatum = .ok read := Metadata.read_toDatum (by simp [Armed, read])
  exact ⟨hread, by decide, Made.keepsKeys_after (.read hread) history⟩

end Coverage.Metadata
