import Coverage.Proofs.Registration
import Coverage.Proofs.Shape

/-!
# Records that refuse nothing

If no key is offered twice, every offer is accepted. Then each group has an entry for each of its arms, in their order.
-/

namespace Coverage

/-- Every group has its entries: those with its number are its arms, each of them once and in their order. -/
def Metadata.Filled (m : Metadata Kind) : Prop :=
  ∀ g ∈ m.groups, (m.entries.filter fun e ↦ e.group = some g.id).map (·.arm) =
    (List.range g.arms.toNat).map fun a ↦ some (a : Int)

namespace Pass

open Syntax Program

variable {plan : Plan} {m : Metadata Kind}

/-! ## Fresh keys -/

theorem refused_offer (hm : m.Tidy) (event : Event) {e : Entry Kind} (hkey : e.key ∉ m.keys) :
    (offer m event e).refused = [] := by
  rw [offer, hm.add_of_not_mem hkey]
  rfl

/-- The keys of a record that refused nothing are those it had and the new ones. -/
theorem nodup_of_refused {e : Enrolment} {before new rest : List Key}
    (hkeys : (e.record.keys ++ e.refused).Perm (before ++ new)) (hrefused : e.refused = [])
    (h : (before ++ (new ++ rest)).Nodup) : (e.record.keys ++ rest).Nodup := by
  rw [hrefused, List.append_nil] at hkeys
  rw [← List.append_assoc] at h
  exact ((hkeys.append_right rest).nodup_iff).2 h

/-- Arms with new and different keys are all accepted. -/
theorem refused_offerArms {id : Int} (a : Nat) (arms : List (Event × Span)) (hm : m.Tidy) (hid : id < m.groups.length)
    (h : (m.keys ++ arms.map fun arm ↦ keyOf .branch arm.2).Nodup) : (offerArms id a arms m).refused = [] := by
  induction arms generalizing a m with
  | nil => rfl
  | cons arm arms ih =>
    obtain ⟨event, span⟩ := arm
    have hkey : keyOf .branch span ∉ m.keys := fun hmem ↦
      (List.nodup_append.1 h).2.2 _ hmem _ List.mem_cons_self rfl
    have hfirst : (offer m event (armEntry id a span)).refused = [] := refused_offer hm event hkey
    have hoffered : Offered m (some id) (offer m event (armEntry id a span)) :=
      offered_offer hm (by rfl) (by simpa using hid) event
    have hrest := nodup_of_refused (keys_offer m event (armEntry id a span)).1 hfirst h
    have hothers := ih (a + 1) hoffered.tidy (by rwa [hoffered.groups]) hrest
    simp [offerArms, Enrolment.andThen, hfirst, hothers]

/-- A site with fresh keys is accepted. -/
theorem refused_enrol (hm : m.Tidy) (site : Site) (h : (m.keys ++ site.keys).Nodup) :
    (enrol plan m site).refused = [] := by
  cases site with
  | unit event kind span name =>
    rw [enrol]
    split
    · exact refused_offer hm event fun hmem ↦ (List.nodup_append.1 h).2.2 _ hmem _ List.mem_cons_self rfl
    · rfl
  | fork construct span arms =>
    rw [enrol]
    split
    · cases arms with
      | nil => simp [Metadata.addGroup]
      | cons arm arms =>
        rw [addGroup_cons]
        have hid : (m.nextGroup construct (arm :: arms).length span).id <
            (m.groups ++ [m.nextGroup construct (arm :: arms).length span]).length := by
          simp only [Metadata.nextGroup, List.length_append, List.length_singleton]
          omega
        exact refused_offerArms 0 _ (hm.addGroup ..) hid h
    · rfl
  | quiet event => rfl
  | silent i => rfl

/-! ## Every offer is accepted or refused -/

theorem length_offer (m : Metadata Kind) (event : Event) (e : Entry Kind) :
    (offer m event e).accepted.length + (offer m event e).refused.length = 1 := by
  unfold offer
  split <;> rfl

theorem length_offerArms (id : Int) (a : Nat) (arms : List (Event × Span)) (m : Metadata Kind) :
    (offerArms id a arms m).accepted.length + (offerArms id a arms m).refused.length = arms.length := by
  induction arms generalizing a m with
  | nil => rfl
  | cons arm arms ih =>
    have hfirst := length_offer m arm.1 (armEntry id a arm.2)
    have hrest := ih (a + 1) (offer m arm.1 (armEntry id a arm.2)).record
    simp only [offerArms, Enrolment.andThen, List.length_append, List.length_cons]
    omega

theorem length_armEntries (id : Int) (a : Nat) (spans : List Span) : (armEntries id a spans).length = spans.length := by
  induction spans generalizing a with
  | nil => rfl
  | cons span spans ih => simp [armEntries, ih]

/-- Every entry of a site is accepted or refused. -/
theorem length_enrol (plan : Plan) (m : Metadata Kind) (site : Site) :
    (enrol plan m site).accepted.length + (enrol plan m site).refused.length =
      (site.entries plan m.groups.length).length := by
  cases site with
  | unit event kind span name =>
    rw [enrol, Site.entries]
    split
    · exact length_offer ..
    · rfl
  | fork construct span arms =>
    rw [enrol, Site.entries]
    split
    · cases arms with
      | nil => simp [Metadata.addGroup, armEntries]
      | cons arm arms =>
        rw [addGroup_cons, length_armEntries, List.length_map]
        exact length_offerArms ..
    · rfl
  | quiet event => rfl
  | silent i => rfl

/-- If nothing of a site is refused, all its entries are accepted. -/
theorem accepted_eq_entries {site : Site} (h : (enrol plan m site).refused = []) :
    (enrol plan m site).accepted.map (·.2) = site.entries plan m.groups.length := by
  have hlength := length_enrol plan m site
  rw [h, List.length_nil, Nat.add_zero] at hlength
  exact (sublist_enrol plan m site).eq_of_length (by rw [List.length_map, hlength])

/-! ## Filled groups -/

theorem map_arm_armEntries (id : Int) (a : Nat) (spans : List Span) :
    (armEntries id a spans).map (·.arm) = (List.range' a spans.length).map fun b ↦ some (b : Int) := by
  induction spans generalizing a with
  | nil => rfl
  | cons span spans ih => simp [armEntries, ih, List.range'_succ, armEntry]

theorem group_of_mem_armEntries {id : Int} {a : Nat} {spans : List Span} {e : Entry Kind}
    (h : e ∈ armEntries id a spans) : e.group = some id := by
  obtain ⟨b, span, -, -, rfl⟩ := mem_armEntries h
  rfl

/-- The entries of a site have no group, or the one that the site adds. -/
theorem group_of_mem_entries {k : Nat} {site : Site} {e : Entry Kind} (h : e ∈ site.entries plan k) :
    e.group = none ∨ e.group = some (k : Int) := by
  cases site with
  | unit event kind span name =>
    rw [Site.entries] at h
    split at h
    · obtain rfl := List.mem_singleton.1 h
      exact .inl rfl
    · cases h
  | fork construct span arms =>
    rw [Site.entries] at h
    split at h
    · exact .inr (group_of_mem_armEntries h)
    · cases h
  | quiet event => cases h
  | silent i => cases h

/-- A group that a site adds is filled with the entries of the site. -/
theorem filled_of_mem_groups {k : Nat} {site : Site} {g : Group} (h : g ∈ site.groups plan k) :
    g.id = k ∧ ((site.entries plan k).filter fun e ↦ e.group = some g.id).map (·.arm) =
      (List.range g.arms.toNat).map fun a ↦ some (a : Int) := by
  cases site with
  | fork construct span arms =>
    rw [Site.groups] at h
    split at h
    next hcounts =>
      obtain rfl := List.mem_singleton.1 h
      have hall : (armEntries k 0 (arms.map (·.2))).filter (fun e ↦ e.group = some (k : Int)) =
          armEntries k 0 (arms.map (·.2)) :=
        List.filter_eq_self.2 fun e he ↦ decide_eq_true (group_of_mem_armEntries he)
      rw [Site.entries, if_pos hcounts.1]
      refine ⟨rfl, ?_⟩
      dsimp only
      rw [hall, map_arm_armEntries, List.length_map, Int.toNat_natCast, List.range_eq_range']
    next => cases h
  | _ => cases h

/-- What a site preserves: if none of its entries is refused, no group lacks one. -/
theorem filled_enrol (htidy : m.Tidy) (h : m.Filled) {site : Site} (hsite : site.Proper)
    (hrefused : (enrol plan m site).refused = []) : (enrol plan m site).record.Filled := by
  have hentries := (enrols_site plan htidy hsite).entries
  rw [accepted_eq_entries hrefused] at hentries
  intro g hg
  rw [groups_enrol plan htidy, List.mem_append] at hg
  rw [hentries, List.filter_append, List.map_append]
  rcases hg with hg | hg
  · have hnone : (site.entries plan m.groups.length).filter (fun e ↦ e.group = some g.id) = [] := by
      refine List.filter_eq_nil_iff.2 fun e he hgroup ↦ ?_
      have hid := htidy.numbered g hg
      rcases group_of_mem_entries he with hother | hother
      · simp [hother] at hgroup
      · have heq : (m.groups.length : Int) = g.id := by simpa [hother] using hgroup
        omega
    rw [hnone, List.map_nil, List.append_nil]
    exact h g hg
  · obtain ⟨hid, hfilled⟩ := filled_of_mem_groups hg
    have hnone : m.entries.filter (fun e ↦ e.group = some g.id) = [] := by
      refine List.filter_eq_nil_iff.2 fun e he hgroup ↦ ?_
      have hlt := htidy.grouped e he g.id (of_decide_eq_true hgroup)
      omega
    rw [hnone, List.map_nil, List.nil_append]
    exact hfilled

/-- If no key is offered twice, nothing is refused and no group lacks an entry. -/
theorem filled_enrolAll (hcounts : ∀ kind, plan.counts kind = true) (htidy : m.Tidy) (h : m.Filled) {sites : List Site}
    (hsites : ∀ site ∈ sites, site.Proper) (hfresh : (m.keys ++ sites.flatMap Site.keys).Nodup) :
    (enrolAll plan m sites).refused = [] ∧ (enrolAll plan m sites).record.Filled := by
  induction sites generalizing m with
  | nil => exact ⟨rfl, h⟩
  | cons site rest ih =>
    rw [List.forall_mem_cons] at hsites
    rw [List.flatMap_cons] at hfresh
    have hsite : (m.keys ++ site.keys).Nodup := by
      rw [← List.append_assoc] at hfresh
      exact (List.nodup_append.1 hfresh).1
    have hrefused : (enrol plan m site).refused = [] := refused_enrol htidy site hsite
    have hrest := nodup_of_refused (keys_enrol hcounts m site).1 hrefused hfresh
    obtain ⟨hothers, hfilled⟩ := ih (enrols_site plan htidy hsites.1).tidy (filled_enrol htidy h hsites.1 hrefused)
      hsites.2 hrest
    exact ⟨by simp [Enrolment.andThen, hrefused, hothers], hfilled⟩

end Pass

end Coverage
