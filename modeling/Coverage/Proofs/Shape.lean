import Coverage.Proofs.Correspondence.Keys
import Coverage.Proofs.Report

/-!
# The record of a pass is shaped

A site offers entries of its own: one for a unit, one for each arm of a decision point, which gets the next group. The
record accepts some of them, in their order, so what holds of the offers of each site holds of the record.
-/

namespace Coverage.Pass

open Syntax Program

variable {plan : Plan} {m : Metadata Kind}

def armEntries (group : Int) : Nat → List Span → List (Entry Kind)
  | _, [] => []
  | a, span :: spans => armEntry group a span :: armEntries group (a + 1) spans

/-- The entries that a site offers to a record with `k` groups. -/
def Site.entries (plan : Plan) (k : Nat) : Site → List (Entry Kind)
  | .unit _ kind span name => if plan.counts kind then [{ key := keyOf kind span, kind, span, name }] else []
  | .fork _ _ arms => if plan.counts .branch then armEntries k 0 (arms.map (·.2)) else []
  | .quiet _ | .silent _ => []

/-- The group that a site adds to a record with `k` groups. -/
def Site.groups (plan : Plan) (k : Nat) : Site → List Group
  | .fork construct span arms =>
    if plan.counts .branch ∧ arms ≠ [] then [⟨k, construct, arms.length, span⟩] else []
  | .unit .. | .quiet _ | .silent _ => []

/-! ## What is accepted -/

theorem sublist_offer (m : Metadata Kind) (event : Event) (e : Entry Kind) :
    ((offer m event e).accepted.map (·.2)).Sublist [e] := by
  unfold offer
  split <;> simp

theorem sublist_offerArms (group : Int) (a : Nat) (arms : List (Event × Span)) (m : Metadata Kind) :
    ((offerArms group a arms m).accepted.map (·.2)).Sublist (armEntries group a (arms.map (·.2))) := by
  induction arms generalizing a m with
  | nil => exact List.Sublist.refl _
  | cons arm arms ih =>
    have hfirst := sublist_offer m arm.1 (armEntry group a arm.2)
    have hrest := ih (a + 1) (offer m arm.1 (armEntry group a arm.2)).record
    simpa [offerArms, Enrolment.andThen, armEntries] using hfirst.append hrest

theorem addGroup_cons (m : Metadata Kind) (construct : Construct) (span : Span) (arm : Event × Span)
    (arms : List (Event × Span)) :
    m.addGroup construct (arm :: arms).length span = some (m.nextGroup construct (arm :: arms).length span,
      { m with groups := m.groups ++ [m.nextGroup construct (arm :: arms).length span] }) :=
  if_neg (by simp only [List.length_cons]; omega)

/-- A record accepts some of the entries that a site offers, in their order. -/
theorem sublist_enrol (plan : Plan) (m : Metadata Kind) (site : Site) :
    ((enrol plan m site).accepted.map (·.2)).Sublist (site.entries plan m.groups.length) := by
  cases site with
  | unit event kind span name =>
    rw [enrol, Site.entries]
    split
    · exact sublist_offer ..
    · simp
  | fork construct span arms =>
    rw [enrol, Site.entries]
    split
    · cases arms with
      | nil => simp [Metadata.addGroup]
      | cons arm arms =>
        rw [addGroup_cons]
        exact sublist_offerArms ..
    · simp
  | quiet event => simp [enrol]
  | silent i => simp [enrol]

/-- A site adds its group last. -/
theorem groups_enrol (plan : Plan) (hm : m.Tidy) (site : Site) :
    (enrol plan m site).record.groups = m.groups ++ site.groups plan m.groups.length := by
  cases site with
  | unit event kind span name =>
    rw [enrol, Site.groups]
    split
    · rw [(offered_offer hm (by rfl) (by simp) event).groups, List.append_nil]
    · simp
  | fork construct span arms =>
    rw [enrol, Site.groups]
    split
    next hcounts =>
      cases arms with
      | nil => simp [Metadata.addGroup]
      | cons arm arms =>
        rw [addGroup_cons, if_pos ⟨hcounts, by simp⟩]
        have hid : (m.nextGroup construct (arm :: arms).length span).id <
            (m.groups ++ [m.nextGroup construct (arm :: arms).length span]).length := by
          simp only [Metadata.nextGroup, List.length_append, List.length_singleton]
          omega
        exact (offered_arms 0 _ (hm.addGroup ..) hid).groups
    next hcounts => simp [hcounts]
  | quiet event => simp [enrol, Site.groups]
  | silent i => simp [enrol, Site.groups]

/-! ## What is offered -/

theorem position_armEntry (group : Int) (a : Nat) (span : Span) :
    (armEntry group a span).position? = some (group, (a : Int)) := rfl

theorem mem_armEntries {group : Int} {a : Nat} {spans : List Span} {e : Entry Kind}
    (h : e ∈ armEntries group a spans) : ∃ b span, a ≤ b ∧ b < a + spans.length ∧ e = armEntry group b span := by
  induction spans generalizing a with
  | nil => cases h
  | cons span spans ih =>
    rw [armEntries] at h
    rcases List.mem_cons.1 h with rfl | h
    · exact ⟨a, span, Nat.le_refl a, by simp, rfl⟩
    · obtain ⟨b, span', hle, hlt, heq⟩ := ih h
      exact ⟨b, span', by omega, by simp only [List.length_cons]; omega, heq⟩

theorem proper_armEntry (group : Int) (a : Nat) (span : Span) : (armEntry group a span).Proper := by
  constructor <;> simp [armEntry]

/-- The arms of a group come in their order. -/
theorem pairwise_armEntries (group : Int) (a : Nat) (spans : List Span) :
    ((armEntries group a spans).filterMap Entry.position?).Pairwise Precedes := by
  induction spans generalizing a with
  | nil => exact .nil
  | cons span spans ih =>
    rw [armEntries, List.filterMap_cons, position_armEntry, List.pairwise_cons]
    refine ⟨fun position hposition ↦ ?_, ih (a + 1)⟩
    obtain ⟨e, he, heq⟩ := List.mem_filterMap.1 hposition
    obtain ⟨b, span', hle, -, rfl⟩ := mem_armEntries he
    rw [position_armEntry, Option.some.injEq] at heq
    rw [← heq]
    exact Prod.Lex.right _ (by omega)

/-- The entries of a proper site are proper. -/
theorem proper_of_mem_entries {k : Nat} {site : Site} (hsite : site.Proper) {e : Entry Kind}
    (he : e ∈ site.entries plan k) : e.Proper := by
  cases site with
  | unit event kind span name =>
    rw [Site.entries] at he
    split at he
    · obtain rfl := List.mem_singleton.1 he
      rcases hsite with ⟨rfl, rfl⟩ | ⟨rfl, hname⟩
      · constructor <;> simp
      · constructor <;> simp [hname]
    · cases he
  | fork construct span arms =>
    rw [Site.entries] at he
    split at he
    · obtain ⟨b, span', -, -, rfl⟩ := mem_armEntries he
      exact proper_armEntry ..
    · cases he
  | quiet event => cases he
  | silent i => cases he

/-- Entries with a position belong to the group that their site adds. -/
theorem within_of_mem_entries {k : Nat} {site : Site} {e : Entry Kind} (he : e ∈ site.entries plan k)
    {group arm : Int} (hposition : e.position? = some (group, arm)) :
    group = k ∧ ∃ g ∈ site.groups plan k, g.id = group ∧ 0 ≤ arm ∧ arm < g.arms := by
  cases site with
  | unit event kind span name =>
    rw [Site.entries] at he
    split at he
    · obtain rfl := List.mem_singleton.1 he
      cases hposition
    · cases he
  | fork construct span arms =>
    rw [Site.entries] at he
    split at he
    next hcounts =>
      obtain ⟨b, span', -, hlt, rfl⟩ := mem_armEntries he
      rw [position_armEntry, Option.some.injEq, Prod.mk.injEq] at hposition
      obtain ⟨rfl, rfl⟩ := hposition
      rw [Nat.zero_add, List.length_map] at hlt
      have harms : arms ≠ [] := List.ne_nil_of_length_pos (by omega)
      refine ⟨rfl, ⟨k, construct, arms.length, span⟩, ?_, rfl, Int.natCast_nonneg b, Int.ofNat_lt.2 hlt⟩
      rw [Site.groups, if_pos ⟨hcounts, harms⟩]
      exact List.mem_singleton.2 rfl
    next => cases he
  | quiet event => cases he
  | silent i => cases he

/-- The entries of a site come in the order of their arms. -/
theorem pairwise_entries (plan : Plan) (k : Nat) (site : Site) :
    ((site.entries plan k).filterMap Entry.position?).Pairwise Precedes := by
  cases site with
  | unit event kind span name =>
    rw [Site.entries]
    split <;> exact .nil
  | fork construct span arms =>
    rw [Site.entries]
    split
    · exact pairwise_armEntries ..
    · exact .nil
  | quiet event => exact .nil
  | silent i => exact .nil

theorem id_of_mem_groups {k i : Nat} {site : Site} {g : Group} (h : (site.groups plan k)[i]? = some g) :
    i = 0 ∧ g.id = k := by
  cases site with
  | fork construct span arms =>
    rw [Site.groups] at h
    split at h
    · cases i with
      | zero =>
        cases h
        exact ⟨rfl, rfl⟩
      | succ i => cases h
    · cases h
  | _ => cases h

/-! ## Shaped records -/

theorem shaped_empty (filename : String) : Metadata.Shaped { filename } where
  distinct := by simp [Metadata.keys]
  proper := by simp
  numbered := by simp
  within := by simp
  ordered := by simp

/-- A site keeps a record shaped. -/
theorem shaped_enrol (plan : Plan) (htidy : m.Tidy) (h : m.Shaped) {site : Site} (hsite : site.Proper) :
    (enrol plan m site).record.Shaped := by
  have henrols := enrols_site plan htidy hsite
  have hentries := henrols.entries
  have hnew := sublist_enrol plan m site
  have hgroups := groups_enrol plan htidy site
  generalize (enrol plan m site).accepted.map (·.2) = new at hentries hnew
  constructor
  case distinct => exact henrols.tidy.nodup
  case proper =>
    intro e he
    rw [hentries] at he
    rcases List.mem_append.1 he with he | he
    · exact h.proper e he
    · exact proper_of_mem_entries hsite (hnew.subset he)
  case numbered =>
    intro i g hg
    rw [hgroups] at hg
    rcases Nat.lt_or_ge i m.groups.length with hlt | hge
    · rw [List.getElem?_append_left hlt] at hg
      exact h.numbered i g hg
    · rw [List.getElem?_append_right hge] at hg
      obtain ⟨hi, hid⟩ := id_of_mem_groups hg
      omega
  case within =>
    intro e he group arm hposition
    rw [hentries] at he
    rw [hgroups]
    rcases List.mem_append.1 he with he | he
    · obtain ⟨g, hg, hwithin⟩ := h.within e he group arm hposition
      exact ⟨g, List.mem_append_left _ hg, hwithin⟩
    · obtain ⟨-, g, hg, hwithin⟩ := within_of_mem_entries (hnew.subset he) hposition
      exact ⟨g, List.mem_append_right _ hg, hwithin⟩
  case ordered =>
    rw [hentries, List.filterMap_append, List.pairwise_append]
    refine ⟨h.ordered, (pairwise_entries plan _ site).sublist (hnew.filterMap _), ?_⟩
    intro old hold late hlate
    obtain ⟨e, he, hposition⟩ := List.mem_filterMap.1 hold
    obtain ⟨e', he', hposition'⟩ := List.mem_filterMap.1 hlate
    have hbefore := htidy.grouped e he old.1 (group_of_position hposition)
    have hafter := (within_of_mem_entries (hnew.subset he') hposition').1
    exact Prod.lex_iff.2 (.inl (hafter ▸ hbefore))

/-- What one site preserves, all sites do. -/
theorem shaped_enrolAll (plan : Plan) (htidy : m.Tidy) (h : m.Shaped) {sites : List Site}
    (hsites : ∀ site ∈ sites, site.Proper) : (enrolAll plan m sites).record.Shaped := by
  induction sites generalizing m with
  | nil => exact h
  | cons site rest ih =>
    rw [List.forall_mem_cons] at hsites
    exact ih (enrols_site plan htidy hsites.1).tidy (shaped_enrol plan htidy h hsites.1) hsites.2

/-- The record of a pass is shaped, so there is a report on any counts of it, and grouping the branches of the report
keeps their order. -/
theorem shaped_instrument {marks : Marks} {next : NodeId} {tree : Node} {i : Instrumented}
    (htree : Identified next tree) (h : instrument plan marks next tree = .ok i) :
    i.record.Shaped ∧ ∀ raw, ∃ report, analyze raw i.record = .ok report ∧
      Report.Grouped report.branchGroups report.branches := by
  have hshaped : i.record.Shaped := by
    obtain ⟨n, -, -, hrecord, -⟩ := instrument_spec htree h
    rw [hrecord]
    exact shaped_enrolAll plan (Metadata.tidy_empty _) (shaped_empty _) (nodeAccounts tree).inner.proper
  refine ⟨hshaped, fun raw ↦ ?_⟩
  obtain ⟨report, hreport, hbranches⟩ := hshaped.analyze raw
  exact ⟨report, hreport, Report.grouped_branchGroups (hbranches ▸ hshaped.ordered)⟩

/-- A `try` whose arms have the same range. -/
theorem shaped_instrument_collidingTry :
    ∃ i, instrument { filename := "m.py" } {} 4 collidingTry = .ok i ∧
      (i.record.Shaped ∧ ∀ raw, ∃ report, analyze raw i.record = .ok report ∧
        Report.Grouped report.branchGroups report.branches) := by
  obtain ⟨i, h⟩ : ∃ i, instrument { filename := "m.py" } {} 4 collidingTry = .ok i :=
    exists_ok_of_toBool (by decide +kernel)
  exact ⟨i, h, shaped_instrument ⟨by decide, by decide⟩ h⟩

end Coverage.Pass
