import Coverage.Metadata.Data
import Coverage.Proofs.Datum.Validation
import Coverage.Proofs.Metadata.Index

/-!
# Records that are written and read

A record that is written as data is read back as it was, without its index. This takes that every group has an arm,
which is true of what is read.
-/

namespace Coverage

open Reading (field fieldOr both)

/-- Every group has an arm. -/
def Metadata.Armed {κ : Type} (m : Metadata κ) : Prop := ∀ g ∈ m.groups, 1 ≤ g.arms

/-! ## Writing, then reading -/

@[simp]
theorem Kind.ofName?_name (kind : Kind) : Kind.ofName? kind.name = some kind := by
  cases kind <;> decide

@[simp]
theorem Construct.ofName?_name (construct : Construct) : Construct.ofName? construct.name = some construct := by
  cases construct <;> decide

theorem read_intOrNull (n : Option Int) : Reading.nullable Reading.int (intOrNull n) = .ok n := by
  cases n <;> rfl

theorem read_strOrNull (s : Option String) : Reading.nullable Reading.str ((s.map Datum.str).getD .null) = .ok s := by
  cases s <;> rfl

section Writing

attribute [local simp] Reading.model Reading.int Reading.str Reading.named Reading.under field fieldOr both Datum.object
  Datum.lookup Except.map

theorem Span.read_toDatum (s : Span) : Span.read s.toDatum = .ok s := by
  simp [Span.read, Span.toDatum]

theorem Group.read_toDatum (g : Group) (h : 1 ≤ g.arms) : Group.read g.toDatum = .ok g := by
  have harms : Group.readArms (.int g.arms) = .ok g.arms := if_neg (by omega)
  simp [Group.read, Group.toDatum, harms, Span.read_toDatum]

theorem Entry.read_toDatum (e : Entry Kind) : Entry.read e.toDatum = .ok e := by
  simp [Entry.read, Entry.readWith, Entry.toDatum, read_intOrNull, read_strOrNull, Span.read_toDatum]

/-- A record is read back as it was written; its index is not written. -/
theorem Metadata.read_toDatum {m : Metadata Kind} (h : m.Armed) : Metadata.read m.toDatum = .ok m.visible := by
  have hentries : Reading.list Entry.read (.list (m.entries.map Entry.toDatum)) = .ok m.entries := by
    refine Reading.list_eq_ok.2 ⟨_, rfl, List.forall₂_map_left_iff.2 (List.forall₂_same.2 fun e _ ↦ ?_)⟩
    exact e.read_toDatum
  have hgroups : Reading.list Group.read (.list (m.groups.map Group.toDatum)) = .ok m.groups := by
    refine Reading.list_eq_ok.2 ⟨_, rfl, List.forall₂_map_left_iff.2 (List.forall₂_same.2 fun g hg ↦ ?_)⟩
    exact g.read_toDatum (h g hg)
  simp [Metadata.read, Metadata.toDatum, hentries, hgroups, Metadata.visible]

end Writing

/-! ## What is read -/

/-- A group that is read has an arm. -/
theorem Group.one_le_arms_of_read {d : Datum} {g : Group} (h : Group.read d = .ok g) : 1 ≤ g.arms := by
  obtain ⟨pairs, rfl, hfields⟩ := Reading.model_eq_ok.1 h
  obtain ⟨⟨id, construct, arms, span⟩, hparts, rfl⟩ := Reading.map_eq_ok.1 hfields
  obtain ⟨-, hrest⟩ := Reading.both_eq_ok.1 hparts
  obtain ⟨-, hrest⟩ := Reading.both_eq_ok.1 hrest
  obtain ⟨harms, -⟩ := Reading.both_eq_ok.1 hrest
  obtain ⟨d, -, hread⟩ := Reading.field_eq_ok.1 harms
  unfold Group.readArms at hread
  split at hread
  next n _ =>
    split at hread
    next => cases hread
    next hn =>
      cases hread
      exact Int.not_lt.1 hn
  next => cases hread

theorem Metadata.armed_of_read {d : Datum} {m : Metadata Kind} (h : Metadata.read d = .ok m) : m.Armed := by
  obtain ⟨pairs, rfl, hfields⟩ := Reading.model_eq_ok.1 h
  obtain ⟨⟨filename, entries, groups⟩, hparts, rfl⟩ := Reading.map_eq_ok.1 hfields
  obtain ⟨-, hrest⟩ := Reading.both_eq_ok.1 hparts
  obtain ⟨-, hgroups⟩ := Reading.both_eq_ok.1 hrest
  rcases Reading.fieldOr_eq_ok.1 hgroups with ⟨d, -, hread⟩ | ⟨-, hdefault⟩
  · exact Reading.forall_of_list_eq_ok (fun _ _ ↦ Group.one_le_arms_of_read) hread
  · have hnone : groups = [] := hdefault
    simp [Metadata.Armed, hnone]

/-- A record that is read has no index yet. -/
theorem Metadata.visible_of_read {d : Datum} {m : Metadata Kind} (h : Metadata.read d = .ok m) : m.visible = m := by
  obtain ⟨pairs, rfl, hfields⟩ := Reading.model_eq_ok.1 h
  obtain ⟨_, -, rfl⟩ := Reading.map_eq_ok.1 hfields
  rfl

end Coverage
