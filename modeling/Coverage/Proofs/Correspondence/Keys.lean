import Coverage.Proofs.Correspondence.Calls
import Coverage.Proofs.Metadata
import Coverage.Proofs.Pass.Accounts

/-!
# Keys and calls

Enrolling the sites of a tree appends the accepted entries to the record and labels their events with their
keys, so each key of the record is counted by one call. The arms of a `try` are counted together: an arm whose
other arm is refused has an entry but no call.
-/

namespace Coverage.Pass

open Syntax Program

/-- What enrolling does to a record, and which of the accepted keys the tags give. -/
structure Enrols (m : Metadata Kind) (e : Enrolment) : Prop where
  tidy : e.record.Tidy
  entries : e.record.entries = m.entries ++ e.accepted.map (·.2)
  groups : ∃ more, e.record.groups = m.groups ++ more ∧ ∀ g ∈ more, m.groups.length ≤ g.id
  fresh : ∀ a ∈ e.accepted, ∀ id, a.2.group = some id → m.groups.length ≤ id
  keys : (keysOf e.tags).Sublist (e.accepted.map (·.2.key))
  called : ∀ a ∈ e.accepted, a.2.key ∈ keysOf e.tags ↔ ¬e.record.Lone a.2

namespace Enrols

variable {m : Metadata Kind} {e f : Enrolment}

theorem keys_eq (h : Enrols m e) : e.record.keys = m.keys ++ e.accepted.map (·.2.key) := by
  simp [Metadata.keys, h.entries]

/-- Later entries and groups do not change which entries are alone. -/
theorem lone_iff (h : Enrols m e) (h' : Enrols e.record f) {a : Event × Entry Kind} (ha : a ∈ e.accepted) :
    f.record.Lone a.2 ↔ e.record.Lone a.2 := by
  obtain ⟨more, hmore, hnew⟩ := h'.groups
  have hentry : a.2 ∈ e.record.entries := by
    rw [h.entries]
    exact List.mem_append_right _ (List.mem_map_of_mem ha)
  have hold : ∀ id, a.2.group = some id → id < e.record.groups.length := h.tidy.grouped a.2 hentry
  constructor
  · rintro ⟨g, hg, htry, htwo, hgroup, halone⟩
    refine ⟨g, ?_, htry, htwo, hgroup, fun e' he' ↦ halone e' ?_⟩
    · rw [hmore] at hg
      rcases List.mem_append.1 hg with hg | hg
      · exact hg
      · have hlt := hold g.id hgroup
        have hle := hnew g hg
        omega
    · rw [h'.entries]
      exact List.mem_append_left _ he'
  · rintro ⟨g, hg, htry, htwo, hgroup, halone⟩
    refine ⟨g, ?_, htry, htwo, hgroup, fun e' he' hid ↦ ?_⟩
    · rw [hmore]
      exact List.mem_append_left _ hg
    · rw [h'.entries] at he'
      rcases List.mem_append.1 he' with he' | he'
      · exact halone e' he' hid
      · obtain ⟨b, hb, rfl⟩ := List.mem_map.1 he'
        have hlt := hold g.id hgroup
        have hle := h'.fresh b hb g.id hid
        omega

/-- Enrolments in a row. -/
theorem andThen (h : Enrols m e) (h' : Enrols e.record f) : Enrols m (e.andThen f) := by
  obtain ⟨more, hmore, hnew⟩ := h.groups
  obtain ⟨more', hmore', hnew'⟩ := h'.groups
  have hlen : m.groups.length ≤ e.record.groups.length := by simp [hmore]
  have hdisjoint : ∀ a ∈ e.accepted, ∀ b ∈ f.accepted, a.2.key ≠ b.2.key := by
    have hnodup : (e.record.keys ++ f.accepted.map (·.2.key)).Nodup := h'.keys_eq ▸ h'.tidy.nodup
    intro a ha b hb heq
    refine (List.nodup_append.1 hnodup).2.2 a.2.key ?_ b.2.key ?_ heq
    · rw [h.keys_eq]
      exact List.mem_append_right _ (List.mem_map.2 ⟨a, ha, rfl⟩)
    · exact List.mem_map.2 ⟨b, hb, rfl⟩
  constructor
  case tidy => exact h'.tidy
  case entries => simp [Enrolment.andThen, h'.entries, h.entries]
  case groups =>
    refine ⟨more ++ more', by simp [Enrolment.andThen, hmore', hmore], fun g hg ↦ ?_⟩
    rcases List.mem_append.1 hg with hg | hg
    · exact hnew g hg
    · have := hnew' g hg
      omega
  case fresh =>
    intro a ha id hid
    rcases List.mem_append.1 ha with ha | ha
    · exact h.fresh a ha id hid
    · have := h'.fresh a ha id hid
      omega
  case keys =>
    simp only [Enrolment.andThen, keysOf_append, List.map_append]
    exact h.keys.append h'.keys
  case called =>
    intro a ha
    simp only [Enrolment.andThen, keysOf_append, List.mem_append]
    rcases List.mem_append.1 ha with ha | ha
    · rw [h.lone_iff h' ha, ← h.called a ha]
      refine or_iff_left fun hkey ↦ ?_
      obtain ⟨b, hb, heq⟩ := List.mem_map.1 (h'.keys.subset hkey)
      exact hdisjoint a ha b hb heq.symm
    · rw [← h'.called a ha]
      refine or_iff_right fun hkey ↦ ?_
      obtain ⟨b, hb, heq⟩ := List.mem_map.1 (h.keys.subset hkey)
      exact hdisjoint b hb a ha heq

end Enrols

/-! ## Offers -/

/-- What offering entries of one group does to a record: each accepted entry is labelled. -/
structure Offered (m : Metadata Kind) (group : Option Int) (e : Enrolment) : Prop where
  tidy : e.record.Tidy
  entries : e.record.entries = m.entries ++ e.accepted.map (·.2)
  groups : e.record.groups = m.groups
  grouped : ∀ a ∈ e.accepted, a.2.group = group
  keys : keysOf e.tags = e.accepted.map (·.2.key)

section Offers

variable {m : Metadata Kind} {group : Option Int} {e f : Enrolment}

theorem Offered.andThen (h : Offered m group e) (h' : Offered e.record group f) :
    Offered m group (e.andThen f) where
  tidy := h'.tidy
  entries := by simp [Enrolment.andThen, h'.entries, h.entries]
  groups := h'.groups.trans h.groups
  grouped a ha := by
    rcases List.mem_append.1 ha with ha | ha
    · exact h.grouped a ha
    · exact h'.grouped a ha
  keys := by simp [Enrolment.andThen, h.keys, h'.keys]

theorem offered_nothing (hm : m.Tidy) : Offered m group ⟨m, [], [], []⟩ :=
  ⟨hm, by simp, rfl, by simp, rfl⟩

/-- An entry is accepted, or refused because its key is taken. -/
theorem offered_offer (hm : m.Tidy) {entry : Entry Kind} (hentry : entry.group = group)
    (hgroup : ∀ id, group = some id → id < m.groups.length) (event : Event) :
    Offered m group (offer m event entry) := by
  subst hentry
  unfold offer
  by_cases hkey : entry.key ∈ m.keys
  · rw [hm.add_of_mem hkey]
    exact ⟨hm, by simp, rfl, by simp, rfl⟩
  · have htidy := hm.add hkey hgroup
    rw [hm.add_of_not_mem hkey] at htidy ⊢
    exact ⟨htidy, by simp, rfl, by simp, rfl⟩

theorem offered_arms {id : Int} (a : Nat) (arms : List (Event × Span)) (hm : m.Tidy)
    (hid : id < m.groups.length) : Offered m (some id) (offerArms id a arms m) := by
  induction arms generalizing a m with
  | nil => exact offered_nothing hm
  | cons arm arms ih =>
    have hfirst : Offered m (some id) (offer m arm.1 (armEntry id a arm.2)) :=
      offered_offer hm (by rfl) (by simpa using hid) arm.1
    exact hfirst.andThen (ih (a + 1) hfirst.tidy (by rwa [hfirst.groups]))

theorem length_tags_offerArms (id : Int) (a : Nat) (arms : List (Event × Span)) (m : Metadata Kind) :
    (offerArms id a arms m).tags.length = arms.length := by
  induction arms generalizing a m with
  | nil => rfl
  | cons arm arms ih =>
    have hone : (offer m arm.1 (armEntry id a arm.2)).tags.length = 1 := by
      unfold offer
      split <;> rfl
    simp [offerArms, Enrolment.andThen, ih, hone, Nat.add_comm]

end Offers

/-! ## Sites -/

theorem keysOf_unlabelled (tags : List Tag) : keysOf (tags.map Tag.unlabelled) = [] := by
  induction tags with
  | nil => rfl
  | cons tag tags ih => cases tag <;> simp [ih, Tag.unlabelled]

/-- All labels have keys exactly if there are as many keys as labels. -/
theorem length_keysOf_eq {tags : List Tag} :
    (keysOf tags).length = tags.length ↔ (tags.any (·.key?.isNone)) = false := by
  rw [keysOf, List.length_filterMap_eq_countP, List.countP_eq_length]
  simp [Option.isSome_iff_ne_none]

section Sites

variable {plan : Plan} {m : Metadata Kind}

theorem enrols_nothing (hm : m.Tidy) {tags : List Tag} (htags : keysOf tags = []) :
    Enrols m ⟨m, tags, [], []⟩ :=
  ⟨hm, by simp, ⟨[], by simp⟩, by simp, by simp [htags], by simp⟩

/-- Entries that belong to no group. -/
theorem Offered.enrols {e : Enrolment} (h : Offered m none e) : Enrols m e where
  tidy := h.tidy
  entries := h.entries
  groups := ⟨[], by simp [h.groups]⟩
  fresh a ha id hid := by simp [h.grouped a ha] at hid
  keys := by rw [h.keys]
  called a ha := by
    rw [h.keys]
    refine iff_of_true (List.mem_map.2 ⟨a, ha, rfl⟩) ?_
    rintro ⟨g, -, -, -, hgroup, -⟩
    simp [h.grouped a ha] at hgroup

section Fork

variable {construct : Construct} {span : Span} {arms : Nat} {e : Enrolment}

/-- The group that is added next has a number of its own. -/
theorem eq_nextGroup (hm : m.Tidy) {g : Group} (hg : g ∈ m.groups ++ [m.nextGroup construct arms span])
    (hid : g.id = m.groups.length) : g = m.nextGroup construct arms span := by
  rcases List.mem_append.1 hg with hg | hg
  · have := hm.numbered g hg
    omega
  · exact List.mem_singleton.1 hg

/-- An arm of the group that was just added is alone if the group is a `try` and no other arm is accepted. -/
theorem lone_arm_iff (hm : m.Tidy)
    (h : Offered { m with groups := m.groups ++ [m.nextGroup construct arms span] } (some m.groups.length) e)
    {a : Event × Entry Kind} (ha : a ∈ e.accepted) :
    e.record.Lone a.2 ↔ construct = .tryBody ∧ arms = 2 ∧ ∀ b ∈ e.accepted, b.2 = a.2 := by
  have hgroup := h.grouped a ha
  constructor
  · rintro ⟨g, hg, htry, htwo, hid, halone⟩
    rw [h.groups] at hg
    have hid : g.id = m.groups.length := by simpa [hgroup] using hid.symm
    obtain rfl := eq_nextGroup hm hg hid
    refine ⟨htry, Int.ofNat.inj htwo, fun b hb ↦ halone b.2 ?_ (h.grouped b hb)⟩
    rw [h.entries]
    exact List.mem_append_right _ (List.mem_map_of_mem hb)
  · rintro ⟨rfl, rfl, hsame⟩
    refine ⟨m.nextGroup .tryBody 2 span, by simp [h.groups], rfl, rfl, hgroup, fun e' he' hid ↦ ?_⟩
    rw [h.entries] at he'
    rcases List.mem_append.1 he' with he' | he'
    · exact absurd (hm.grouped e' he' _ hid) (Int.lt_irrefl _)
    · obtain ⟨b, hb, rfl⟩ := List.mem_map.1 he'
      exact hsame b hb

/-- The arms of one group, together with their group. -/
theorem enrols_arms (hm : m.Tidy) (htwo : construct = .tryBody → arms = 2)
    (h : Offered { m with groups := m.groups ++ [m.nextGroup construct arms span] } (some m.groups.length) e)
    (hlen : e.tags.length = arms) : Enrols m { e with tags := settle construct e.tags } where
  tidy := h.tidy
  entries := h.entries
  groups := ⟨[m.nextGroup construct arms span], h.groups, by simp [Metadata.nextGroup]⟩
  fresh a ha id hid := by
    rw [h.grouped a ha, Option.some.injEq] at hid
    exact Int.le_of_eq hid
  keys := by
    unfold settle
    split
    · simp [keysOf_unlabelled]
    · simp [h.keys]
  called := by
    intro a (ha : a ∈ e.accepted)
    rw [lone_arm_iff hm h ha]
    have hkey : a.2.key ∈ keysOf e.tags := by
      rw [h.keys]
      exact List.mem_map.2 ⟨a, ha, rfl⟩
    have hcount : (keysOf e.tags).length = e.accepted.length := by simp [h.keys]
    have hnodup : (e.accepted.map (·.2.key)).Nodup := by
      have := h.tidy.nodup
      rw [Metadata.keys, h.entries, List.map_append, List.nodup_append] at this
      simpa [Function.comp_def] using this.2.1
    unfold settle
    split
    next hsettled =>
      -- One of the two arms is refused, so the accepted arm is the only one.
      obtain ⟨htry, hnone⟩ := hsettled
      have hless : e.accepted.length ≠ 2 := by
        intro hfull
        rw [← hcount, ← htwo htry, ← hlen, length_keysOf_eq] at hfull
        simp [hfull] at hnone
      have hle : e.accepted.length ≤ 2 := by
        rw [← hcount, ← htwo htry, ← hlen]
        exact List.length_filterMap_le ..
      have hone : ∃ b, e.accepted = [b] := by
        have hpos := List.length_pos_of_mem ha
        exact List.length_eq_one_iff.1 (by omega)
      obtain ⟨b, hb⟩ := hone
      obtain rfl : a = b := by simpa [hb] using ha
      simp [keysOf_unlabelled, htry, htwo htry, hb]
    next hkept =>
      refine iff_of_true hkey ?_
      rintro ⟨htry, rfl, hsame⟩
      have hfull : e.accepted.length = 2 := by
        rw [← hcount, ← hlen, length_keysOf_eq]
        simpa [htry] using hkept
      obtain ⟨b, c, hbc⟩ := List.length_eq_two.1 hfull
      have hb := hsame b (by simp [hbc])
      have hc := hsame c (by simp [hbc])
      simp [hbc, hb, hc] at hnodup

end Fork

theorem enrols_site (plan : Plan) (hm : m.Tidy) {site : Site} (hproper : site.Proper) :
    Enrols m (enrol plan m site) := by
  cases site with
  | unit event kind span name =>
    rw [enrol]
    split
    · exact (offered_offer hm (by rfl) (by simp) event).enrols
    · exact enrols_nothing hm rfl
  | fork construct span arms =>
    rw [enrol]
    split
    · cases arms with
      | nil => exact enrols_nothing hm rfl
      | cons arm arms =>
        have htwo : construct = .tryBody → (arm :: arms).length = 2 := by
          rintro rfl
          exact hproper.resolve_left (List.cons_ne_nil _ _)
        have hadd : m.addGroup construct (arm :: arms).length span =
            some (m.nextGroup construct (arm :: arms).length span,
              { m with groups := m.groups ++ [m.nextGroup construct (arm :: arms).length span] }) :=
          if_neg (by simp only [List.length_cons]; omega)
        rw [hadd]
        refine enrols_arms hm htwo (offered_arms 0 _ (hm.addGroup ..) ?_) (length_tags_offerArms ..)
        simp only [Metadata.nextGroup, List.length_append, List.length_singleton]
        omega
    · refine enrols_nothing hm ?_
      simp [keysOf, List.filterMap_map]
  | quiet event => exact enrols_nothing hm rfl
  | silent i => exact enrols_nothing hm rfl

theorem enrols_all (plan : Plan) (hm : m.Tidy) {sites : List Site} (hproper : ∀ site ∈ sites, site.Proper) :
    Enrols m (enrolAll plan m sites) := by
  induction sites generalizing m with
  | nil => exact enrols_nothing hm rfl
  | cons site rest ih =>
    have hsite := enrols_site plan hm (hproper site List.mem_cons_self)
    exact hsite.andThen (ih hsite.tidy fun site' h ↦ hproper site' (List.mem_cons_of_mem _ h))

theorem enrols_roster (plan : Plan) (marks : Marks) (tree : Node) :
    Enrols { filename := plan.filename } (roster plan marks tree) :=
  enrols_all plan (Metadata.tidy_empty _) (nodeAccounts tree).inner.proper

end Sites

/-! ## Calls and entries -/

/-- Calls and the entries of a record correspond: each call names the counters and the file of the pass, no key
is counted twice, and the keys counted are those of the entries, without the arms of `try` that are alone. -/
structure Corresponds (plan : Plan) (calls : List (Option Call)) (record : Metadata Kind) : Prop where
  proper : ∀ c ∈ calls, ∃ call, c = some call ∧ ProbeCall plan call
  distinct : (countedKeys calls).Nodup
  recorded : ∀ key ∈ countedKeys calls, key ∈ record.keys
  counted : ∀ e ∈ record.entries, e.key ∈ countedKeys calls ↔ ¬record.Lone e

/-- The injected calls of a pass, which are those with new identities, correspond to its record. -/
theorem corresponds_instrument {plan : Plan} {marks : Marks} {next : NodeId} {tree : Node} {i : Instrumented}
    (htree : Identified next tree) (h : instrument plan marks next tree = .ok i) :
    Corresponds plan (i.tree.calls next) i.record := by
  obtain ⟨n, hwoven, htree', hrecord, -⟩ := instrument_spec htree h
  have hreports : Reports plan (i.tree.calls next) (keysOf (roster plan marks tree).tags) := by
    rw [htree']
    exact hwoven.counts htree.below .start
  have henrols := enrols_roster plan marks tree
  have hperm := List.perm_iff_count.2 hreports.counts
  have hkeys : i.record.keys = (roster plan marks tree).accepted.map (·.2.key) := by
    rw [hrecord, henrols.keys_eq]
    rfl
  constructor
  case proper => exact hreports.proper
  case distinct =>
    refine hperm.nodup_iff.2 (henrols.keys.nodup ?_)
    rw [← hkeys, hrecord]
    exact henrols.tidy.nodup
  case recorded =>
    intro key hkey
    rw [hkeys]
    exact henrols.keys.subset (hperm.mem_iff.1 hkey)
  case counted =>
    intro e he
    rw [hrecord, henrols.entries] at he
    obtain ⟨a, ha, rfl⟩ : ∃ a ∈ (roster plan marks tree).accepted, a.2 = e := by simpa using he
    rw [hperm.mem_iff, hrecord]
    exact henrols.called a ha

/-- A `try` whose arms have the same place, and therefore one key. -/
def collidingTry : Node :=
  .mk 0 .module {} [.many
    [.mk 1 (.tryStmt false) (placeAt 1 0)
      [.many [.mk 2 (.plain .pass) (placeAt 2 1) []], .many [], .many [],
        .many [.mk 3 (.plain .pass) (placeAt 2 1) []]]],
    .many []]

/-- A `try` whose arms have the same range. -/
theorem corresponds_instrument_collidingTry :
    ∃ i, instrument { filename := "m.py" } {} 4 collidingTry = .ok i ∧
      Corresponds { filename := "m.py" } (i.tree.calls 4) i.record := by
  obtain ⟨i, h⟩ : ∃ i, instrument { filename := "m.py" } {} 4 collidingTry = .ok i :=
    exists_ok_of_toBool (by decide +kernel)
  exact ⟨i, h, corresponds_instrument ⟨by decide, by decide⟩ h⟩

-- Of the three keys of the record, the one of the arm that is alone is not counted.
example : (instrument { filename := "m.py" } {} 4 collidingTry).toOption.map
    (fun i ↦ (i.record.keys.length, (countedKeys (i.tree.calls 4)).length)) = some (3, 2) := by
  decide +kernel

end Coverage.Pass
