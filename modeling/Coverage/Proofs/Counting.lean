import Coverage.Proofs.Registration
import Coverage.Proofs.Transparency

/-!
# Counts are faithful

A run of a program keeps a history of what happened at which node. If no key was refused, the counters of the
program with counters agree with this history: each entry of the record is counted as often as its event happens
in the run of the original, whether the run ends normally or by an exception, and nothing else is counted.

The key of an event is found in the tags of the tree. Since every event is decided once, an event has at most one
key, and since keys are not given twice, a key has at most one event.
-/

namespace Coverage.Pass

open Syntax Program

variable {key : Key} {m : Metadata Kind} {entry : Entry Kind}

/-! ## The key of an event -/

def Tag.keyOf? (event : Event) : Tag → Option Key
  | .label e key => if e = event then key else none
  | .silent _ => none

def Tag.mentions (event : Event) : Tag → Nat
  | .label e _ => if e = event then 1 else 0
  | .silent i => if silences i event then 1 else 0

/-- The key under which an event is counted. -/
def keyFor (tags : List Tag) (event : Event) : Option Key := tags.findSome? (Tag.keyOf? event)

def tagMentions (event : Event) (tags : List Tag) : Nat := (tags.map (Tag.mentions event)).sum

section Tags

variable {event : Event} {tags : List Tag} {tag : Tag}

theorem tagMentions_cons (event : Event) (tag : Tag) (tags : List Tag) :
    tagMentions event (tag :: tags) = tag.mentions event + tagMentions event tags := by
  simp [tagMentions]

theorem tagMentions_append (event : Event) (a b : List Tag) :
    tagMentions event (a ++ b) = tagMentions event a + tagMentions event b := by
  simp [tagMentions]

theorem keyOf?_eq_none (h : tag.mentions event = 0) : tag.keyOf? event = none := by
  cases tag with
  | silent i => rfl
  | label e key =>
    have hne : e ≠ event := by
      intro heq
      simp [Tag.mentions, heq] at h
    simp [Tag.keyOf?, hne]

theorem mentions_le_of_mem (h : tag ∈ tags) : tag.mentions event ≤ tagMentions event tags := by
  induction tags with
  | nil => cases h
  | cons head tags ih =>
    rw [tagMentions_cons]
    rcases List.mem_cons.1 h with rfl | h
    · omega
    · have := ih h
      omega

theorem keyFor_eq_none (h : tagMentions event tags = 0) : keyFor tags event = none := by
  rw [keyFor, List.findSome?_eq_none_iff]
  intro tag htag
  have hle : tag.mentions event ≤ tagMentions event tags := mentions_le_of_mem htag
  exact keyOf?_eq_none (by omega)

/-- A tag that decides about an event gives it its key, if no other one decides about it. -/
theorem keyFor_of_mem (h : tagMentions event tags ≤ 1) (hmem : tag ∈ tags) (htag : tag.mentions event = 1) :
    keyFor tags event = tag.keyOf? event := by
  induction tags with
  | nil => cases hmem
  | cons head tags ih =>
    rw [tagMentions_cons] at h
    rcases List.mem_cons.1 hmem with rfl | hmem
    · have hrest : keyFor tags event = none := keyFor_eq_none (by omega)
      rw [keyFor, List.findSome?_cons]
      cases hkey : tag.keyOf? event with
      | some key => rfl
      | none => exact hrest
    · have hle : tag.mentions event ≤ tagMentions event tags := mentions_le_of_mem hmem
      have hhead : head.keyOf? event = none := keyOf?_eq_none (by omega)
      rw [keyFor, List.findSome?_cons, hhead]
      exact ih (by omega) hmem

theorem mem_of_keyFor (h : keyFor tags event = some key) : .label event (some key) ∈ tags := by
  obtain ⟨tag, htag, hkey⟩ := List.exists_of_findSome?_eq_some h
  cases tag with
  | silent i => cases hkey
  | label e k =>
    by_cases he : e = event
    · simp only [Tag.keyOf?, he, if_true] at hkey
      rw [he, hkey] at htag
      exact htag
    · simp [Tag.keyOf?, he] at hkey

/-- If keys are not given twice, a key belongs to one event. -/
theorem eq_of_keysOf_nodup {e e' : Event} (h : (keysOf tags).Nodup)
    (he : .label e (some key) ∈ tags) (he' : .label e' (some key) ∈ tags) : e = e' := by
  induction tags with
  | nil => cases he
  | cons tag tags ih =>
    have hmem : ∀ {e}, Tag.label e (some key) ∈ tags → key ∈ keysOf tags := fun h ↦
      List.mem_filterMap.2 ⟨_, h, rfl⟩
    rcases List.mem_cons.1 he with rfl | hrest <;> rcases List.mem_cons.1 he' with heq | hrest'
    · exact (Tag.label.inj heq).1.symm
    · simp [hmem hrest'] at h
    · subst heq
      simp [hmem hrest] at h
    · refine ih ?_ hrest hrest'
      cases hkey : tag.key? with
      | none => simpa [keysOf, hkey] using h
      | some k =>
        rw [keysOf, List.filterMap_cons, hkey] at h
        exact (List.nodup_cons.1 h).2

end Tags

/-! ## Sites and tags -/

section Sites

variable {plan : Plan}

theorem mentions_unlabelled (event : Event) (tag : Tag) : tag.unlabelled.mentions event = tag.mentions event := by
  cases tag <;> rfl

theorem tagMentions_settle (event : Event) (construct : Construct) (tags : List Tag) :
    tagMentions event (settle construct tags) = tagMentions event tags := by
  unfold settle
  split
  · have hsame : Tag.mentions event ∘ Tag.unlabelled = Tag.mentions event := by
      funext tag
      exact mentions_unlabelled event tag
    rw [tagMentions, List.map_map, hsame, tagMentions]
  · rfl

theorem tagMentions_offer (m : Metadata Kind) (event e : Event) (entry : Entry Kind) :
    tagMentions event (offer m e entry).tags = if e = event then 1 else 0 := by
  unfold offer
  split <;> simp [tagMentions, Tag.mentions]

theorem tagMentions_offerArms (event : Event) (group : Int) (a : Nat) (arms : List (Event × Span)) (m : Metadata Kind) :
    tagMentions event (offerArms group a arms m).tags = (arms.map (·.1)).count event := by
  induction arms generalizing a m with
  | nil => rfl
  | cons arm arms ih =>
    obtain ⟨e, span⟩ := arm
    have htags : (offerArms group a ((e, span) :: arms) m).tags =
        (offer m e (armEntry group a span)).tags ++
          (offerArms group (a + 1) arms (offer m e (armEntry group a span)).record).tags := rfl
    rw [htags, tagMentions_append, tagMentions_offer, ih, List.map_cons, List.count_cons]
    simp [Nat.add_comm]

theorem tagMentions_bare (event : Event) (arms : List (Event × Span)) :
    tagMentions event (arms.map fun arm ↦ .label arm.1 none) = (arms.map (·.1)).count event := by
  induction arms with
  | nil => rfl
  | cons arm arms ih =>
    rw [List.map_cons, tagMentions_cons, ih, List.map_cons, List.count_cons]
    simp [Tag.mentions, Nat.add_comm]

/-- A site gives an event no more tags than it mentions the event. -/
theorem tagMentions_enrol (event : Event) (m : Metadata Kind) (site : Site) :
    tagMentions event (enrol plan m site).tags ≤ site.mentions event := by
  cases site with
  | unit e kind span name =>
    rw [enrol]
    split
    · exact Nat.le_of_eq (tagMentions_offer ..)
    · simp [tagMentions, Tag.mentions, Site.mentions]
  | fork construct span arms =>
    rw [enrol]
    split
    · split
      · exact Nat.zero_le _
      · rw [tagMentions_settle, tagMentions_offerArms]
        exact Nat.le_refl _
    · exact Nat.le_of_eq (tagMentions_bare event arms)
  | quiet e => simp [enrol, tagMentions, Tag.mentions, Site.mentions]
  | silent i => simp [enrol, tagMentions, Tag.mentions, Site.mentions]

/-- The tags of sites decide about an event no more often than the sites. -/
theorem tagMentions_enrolAll (event : Event) (m : Metadata Kind) (sites : List Site) :
    tagMentions event (enrolAll plan m sites).tags ≤ mentions event sites := by
  induction sites generalizing m with
  | nil => exact Nat.zero_le _
  | cons site rest ih =>
    have htags : (enrolAll plan m (site :: rest)).tags =
        (enrol plan m site).tags ++ (enrolAll plan (enrol plan m site).record rest).tags := rfl
    rw [htags, tagMentions_append, mentions_cons]
    exact Nat.add_le_add (tagMentions_enrol event m site) (ih _)

/-- In a tree whose identities tell its nodes apart, every event is decided at most once. -/
theorem tagMentions_roster_le (plan : Plan) (marks : Marks) {tree : Node} (h : tree.ids.Nodup) (event : Event) :
    tagMentions event (roster plan marks tree).tags ≤ 1 := by
  have haccounts : Accounts tree.ids tree.ids (sites plan marks tree) := (nodeAccounts tree).inner
  have hmentions : mentions event (sites plan marks tree) ≤ 1 := by
    have hone := List.nodup_iff_count_le_one.1 h
    cases event with
    | started i => exact Nat.le_trans (haccounts.started i) (hone i)
    | entered i => exact Nat.le_trans (haccounts.entered i) (hone i)
    | took i a => exact Nat.le_trans (haccounts.took i a) (hone i)
  exact Nat.le_trans (tagMentions_enrolAll event _ _) hmentions

/-- The tags of a tree say what the keys of events are. -/
theorem obey_keyFor {tags : List Tag} (h : ∀ event, tagMentions event tags ≤ 1) :
    Obey (fun event key ↦ keyFor tags event = key) tags := by
  intro tag htag
  cases tag with
  | label event key =>
    have hkey := keyFor_of_mem (h event) htag (by simp [Tag.mentions])
    simpa [Tag.keyOf?] using hkey
  | silent i =>
    constructor
    · exact keyFor_of_mem (h _) htag (by simp [Tag.mentions, silences])
    · intro a
      exact keyFor_of_mem (h _) htag (by simp [Tag.mentions, silences])

/-! ## The entry of an event -/

/-- An entry that can be offered for a site, and the event that it counts. -/
inductive Site.Tells : Site → Entry Kind → Event → Prop
  | unit {event : Event} {kind : Kind} {span : Span} {name : Option String} :
    Tells (.unit event kind span name) { key := keyOf kind span, kind, span, name } event
  | arm {construct : Construct} {span armSpan : Span} {arms : List (Event × Span)} {a : Nat} {event : Event}
    {group : Int} (h : arms[a]? = some (event, armSpan)) :
    Tells (.fork construct span arms) (armEntry group a armSpan) event

theorem accepted_offer {event e : Event} {entry' : Entry Kind}
    (h : (e, entry') ∈ (offer m event entry).accepted) : e = event ∧ entry' = entry := by
  unfold offer at h
  split at h <;> simp_all

theorem accepted_offerArms {group : Int} {a : Nat} {arms : List (Event × Span)} {event : Event}
    (h : (event, entry) ∈ (offerArms group a arms m).accepted) :
    ∃ k span, arms[k]? = some (event, span) ∧ entry = armEntry group (a + k) span := by
  induction arms generalizing a m with
  | nil => cases h
  | cons arm arms ih =>
    obtain ⟨e, span⟩ := arm
    rcases List.mem_append.1 h with h | h
    · obtain ⟨rfl, rfl⟩ := accepted_offer h
      exact ⟨0, span, rfl, rfl⟩
    · obtain ⟨k, span', hk, rfl⟩ := ih h
      exact ⟨k + 1, span', hk, by rw [Nat.add_right_comm]; rfl⟩

/-- What is accepted is an entry for a site, of a kind that is counted. -/
theorem accepted_enrolAll {sites : List Site} {event : Event}
    (h : (event, entry) ∈ (enrolAll plan m sites).accepted) :
    ∃ site ∈ sites, site.Tells entry event ∧ plan.counts entry.kind = true := by
  induction sites generalizing m with
  | nil => cases h
  | cons site rest ih =>
    rcases List.mem_append.1 h with h | h
    · refine ⟨site, List.mem_cons_self, ?_⟩
      cases site with
      | unit e kind span name =>
        rw [enrol] at h
        split at h
        next hcounts =>
          obtain ⟨rfl, rfl⟩ := accepted_offer h
          exact ⟨.unit, hcounts⟩
        next => cases h
      | fork construct span arms =>
        rw [enrol] at h
        split at h
        next hcounts =>
          split at h
          next => cases h
          next group m' hadd =>
            obtain ⟨k, armSpan, hk, rfl⟩ := accepted_offerArms h
            rw [Nat.zero_add]
            exact ⟨.arm hk, hcounts⟩
        next => cases h
      | quiet e => cases h
      | silent i => cases h
    · obtain ⟨site', hsite', htells⟩ := ih h
      exact ⟨site', List.mem_cons_of_mem _ hsite', htells⟩

theorem tags_offer {event : Event} (h : (offer m event entry).refused = []) :
    (offer m event entry).tags = [.label event (some entry.key)] := by
  unfold offer at h ⊢
  split at h
  next hadded => rw [if_pos hadded]
  next => cases h

/-- Without refused keys, every arm is labelled with its key. -/
theorem tags_offerArms {group : Int} {a : Nat} {arms : List (Event × Span)}
    (h : (offerArms group a arms m).refused = []) :
    (offerArms group a arms m).tags = arms.map fun arm ↦ .label arm.1 (some (keyOf .branch arm.2)) := by
  induction arms generalizing a m with
  | nil => rfl
  | cons arm arms ih =>
    obtain ⟨hfirst, hrest⟩ := List.append_eq_nil_iff.1 h
    have htags : (offerArms group a (arm :: arms) m).tags =
        (offer m arm.1 (armEntry group a arm.2)).tags ++
          (offerArms group (a + 1) arms (offer m arm.1 (armEntry group a arm.2)).record).tags := rfl
    rw [htags, tags_offer hfirst, ih hrest]
    rfl

/-- If nothing is refused, every entry for a site of a kind that is counted labels its event. -/
theorem label_of_tells {sites : List Site} {site : Site} {event : Event}
    (hrefused : (enrolAll plan m sites).refused = []) (hsite : site ∈ sites) (htells : site.Tells entry event)
    (hcounts : plan.counts entry.kind = true) :
    .label event (some entry.key) ∈ (enrolAll plan m sites).tags := by
  induction sites generalizing m with
  | nil => cases hsite
  | cons head rest ih =>
    obtain ⟨hfirst, hrest⟩ := List.append_eq_nil_iff.1 hrefused
    rcases List.mem_cons.1 hsite with rfl | hsite
    · refine List.mem_append_left _ ?_
      cases htells with
      | unit =>
        rw [enrol, if_pos hcounts] at hfirst ⊢
        simp [tags_offer hfirst]
      | @arm construct span armSpan arms a _ group ha =>
        have hmem : (event, armSpan) ∈ arms := List.mem_of_getElem? ha
        have hadd : m.addGroup construct arms.length span =
            some (m.nextGroup construct arms.length span,
              { m with groups := m.groups ++ [m.nextGroup construct arms.length span] }) :=
          if_neg (by have := List.length_pos_of_mem hmem; omega)
        have hcounts : plan.counts .branch = true := hcounts
        rw [enrol, if_pos hcounts, hadd] at hfirst ⊢
        have htags := tags_offerArms hfirst
        have hsettled : settle construct (offerArms (m.nextGroup construct arms.length span).id 0 arms
            { m with groups := m.groups ++ [m.nextGroup construct arms.length span] }).tags =
            arms.map fun arm ↦ .label arm.1 (some (keyOf .branch arm.2)) := by
          rw [settle, if_neg (by simp [htags]), htags]
        change _ ∈ settle construct _
        rw [hsettled]
        exact List.mem_map.2 ⟨_, hmem, rfl⟩
    · exact List.mem_append_right _ (ih hrest hsite)

end Sites

/-! ## Comparing counts with a history -/

def tally (tags : List Tag) (key : Key) (history : List Event) : Nat :=
  history.countP fun event ↦ decide (keyFor tags event = some key)

/-- The counts of a file are those that are due. -/
def Due (file : String) (tags : List Tag) (history : List Event) (l : Ledger) : Prop :=
  ∀ key, (l.forFile file).get? key =
    if tally tags key history = 0 then none else some (tally tags key history : Int)

section Due

variable {file : String} {tags : List Tag} {history : List Event} {l : Ledger} {event : Event}

theorem due_empty : Due file tags [] {} := by
  intro key
  simp [tally, Ledger.forFile]

/-- An event without a key changes no count. -/
theorem Due.skip (hkey : keyFor tags event = none) (h : Due file tags history l) :
    Due file tags (event :: history) l := by
  intro key
  have hsame : tally tags key (event :: history) = tally tags key history := by
    simp [tally, hkey]
  rw [hsame]
  exact h key

/-- An event with a key is counted once more. -/
theorem Due.hit (hkey : keyFor tags event = some key) (h : Due file tags history l) :
    Due file tags (event :: history) (l.hit file key) := by
  intro k
  have htally : tally tags k (event :: history) = tally tags k history + if k = key then 1 else 0 := by
    by_cases hk : k = key
    · simp [tally, hkey, hk]
    · simp [tally, hkey, hk, Ne.symm hk]
  rw [Ledger.forFile_hit, if_pos rfl, Ledger.get?_addCount, htally]
  by_cases hk : k = key
  · subst hk
    rw [if_pos rfl, if_pos rfl, if_neg (by omega), h k]
    split
    next hzero => simp [hzero]
    next => simp
  · rw [if_neg hk, if_neg hk, h k, Nat.add_zero]

theorem Due.count_eq (h : Due file tags history l) (key : Key) :
    l.count file key = tally tags key history := by
  rw [Ledger.count, h key]
  split
  next hzero => simp [hzero]
  next => rfl

end Due

/-- A key that labels one event is due as often as this event happens. -/
theorem tally_eq_count {tags : List Tag} {event : Event} (hone : ∀ event, tagMentions event tags ≤ 1)
    (hnodup : (keysOf tags).Nodup) (h : .label event (some key) ∈ tags) (history : List Event) :
    tally tags key history = history.count event := by
  rw [tally, List.count_eq_countP]
  apply List.countP_congr
  intro e _
  rw [decide_eq_true_iff, beq_iff_eq]
  constructor
  · intro hkey
    exact eq_of_keysOf_nodup hnodup (mem_of_keyFor hkey) h
  · intro heq
    rw [heq]
    exact obey_keyFor hone _ h

/-- A run with counters in a ledger that the program does not know is compared by what is due. -/
def counting (plan : Plan) (l : LedgerId) (tags : List Tag) : Comparison where
  tracing := tracingOf plan (fun event key ↦ keyFor tags event = key) False
  ledger := l
  present := True
  shared := False
  access := id
  agree history _ traced := Due plan.filename tags history traced
  skip label h := h.skip label
  count label h := h.hit label
  hit _ _ use _ := use.elim

/-- Code of other nodes that does not use a variable. -/
def apart (x : String) (ids : List NodeId) : Allowed := { avoiding x with node := fun i ↦ decide (i ∉ ids) }

/-- No event of a node outside of a tree has a key. -/
theorem keyFor_eq_none_of_not_mem {plan : Plan} {marks : Marks} {tree : Node} {event : Event} {i : NodeId}
    (hi : i ∉ tree.ids) (hevent : event = .started i ∨ event = .entered i ∨ ∃ a, event = .took i a) :
    keyFor (roster plan marks tree).tags event = none := by
  have haccounts : Accounts tree.ids tree.ids (sites plan marks tree) := (nodeAccounts tree).inner
  have hzero : tree.ids.count i = 0 := List.count_eq_zero.2 hi
  have hmentions : mentions event (sites plan marks tree) = 0 := by
    rcases hevent with rfl | rfl | ⟨a, rfl⟩
    · have := haccounts.started i
      omega
    · have := haccounts.entered i
      omega
    · have := haccounts.took i a
      omega
  have hle : tagMentions event (roster plan marks tree).tags ≤ mentions event (sites plan marks tree) :=
    tagMentions_enrolAll event _ _
  exact keyFor_eq_none (by omega)

theorem spares_apart {plan : Plan} {marks : Marks} {tree : Node} (l : LedgerId) :
    (counting plan l (roster plan marks tree).tags).tracing.Spares false (apart plan.globalName tree.ids) where
  name x hx hown := by simp [apart, avoiding, hown.2, counting, tracingOf] at hx
  load x hx := .inl fun hown ↦ by simp [apart, avoiding, hown.2, counting, tracingOf] at hx
  node i hi :=
    have hi : i ∉ tree.ids := of_decide_eq_true hi
    { entered := keyFor_eq_none_of_not_mem hi (.inr (.inl rfl))
      took := fun a ↦ keyFor_eq_none_of_not_mem hi (.inr (.inr ⟨a, rfl⟩)) }

/-- The ledger of counters after matched runs. -/
theorem due_of_matched {plan : Plan} {l : LedgerId} {tags : List Tag} {s s' : Program.State}
    (h : (counting plan l tags).Matched s s') : Due plan.filename tags s.history (s'.toMemory.ledger l) := by
  exact h.ledger (P := fun _ traced ↦ Due plan.filename tags s.history traced) (fun _ _ hdue ↦ hdue)
    fun hnone ↦ (hnone trivial).elim

/-- Counters agree with what happened in a run of the original: every entry of the record belongs to something that
is offered for a node of the tree, and is counted as often as the event of that happened; no key without an entry is
counted. -/
structure Faithful (plan : Plan) (tree : Node) (record : Metadata Kind) (l : LedgerId) (original traced : Ran) :
    Prop where
  told : ∀ e ∈ record.entries, ∃ site ∈ registrations plan tree, ∃ event, site.Tells e event
  counted : ∀ e ∈ record.entries, ∀ site ∈ registrations plan tree, ∀ event, site.Tells e event →
    (traced.memory.ledger l).count plan.filename e.key = original.history.count event
  unrecorded : ∀ key ∉ record.keys, ((traced.memory.ledger l).forFile plan.filename).get? key = none

theorem Site.Tells.isOffer {site : Site} {e : Entry Kind} {event : Event} (h : site.Tells e event) :
    site.isOffer = true := by
  cases h <;> rfl

/-- Counts that are due are faithful. -/
theorem faithful_of_due {plan : Plan} {full : Bool} {j : NodeId} {place : Place} {fs : List Field}
    (hgrammar : (Node.mk j .module place fs).isA full .root = true)
    (hone : ∀ event, tagMentions event (roster plan {} (.mk j .module place fs)).tags ≤ 1)
    (hrefused : (roster plan {} (.mk j .module place fs)).refused = []) {l : LedgerId} {original traced : Ran}
    (hdue : Due plan.filename (roster plan {} (.mk j .module place fs)).tags original.history
      (traced.memory.ledger l)) :
    Faithful plan (.mk j .module place fs) (roster plan {} (.mk j .module place fs)).record l original traced := by
  generalize htree : Node.mk j .module place fs = tree at hone hrefused hdue ⊢
  have hperm : (offers (sites plan {} tree)).Perm (registrations plan tree) := htree ▸ perm_offers_module hgrammar
  have henrols := enrols_roster plan {} tree
  have hkeys : (roster plan {} tree).record.keys = (roster plan {} tree).accepted.map (·.2.key) := henrols.keys_eq
  have hnodup : (keysOf (roster plan {} tree).tags).Nodup := henrols.keys.nodup (hkeys ▸ henrols.tidy.nodup)
  have haccepted : ∀ e ∈ (roster plan {} tree).record.entries, ∃ event, ∃ site ∈ sites plan {} tree,
      site.Tells e event ∧ plan.counts e.kind = true := by
    intro e he
    rw [henrols.entries] at he
    obtain ⟨⟨event, _⟩, hmem, rfl⟩ := List.mem_map.1 he
    exact ⟨event, accepted_enrolAll hmem⟩
  constructor
  case told =>
    intro e he
    obtain ⟨event, site, hsite, htells, -⟩ := haccepted e he
    exact ⟨site, hperm.mem_iff.1 (List.mem_filter.2 ⟨hsite, htells.isOffer⟩), event, htells⟩
  case counted =>
    intro e he site hsite event htells
    obtain ⟨-, -, -, -, hcounts⟩ := haccepted e he
    have hsite : site ∈ sites plan {} tree := List.mem_of_mem_filter (hperm.mem_iff.2 hsite)
    rw [hdue.count_eq, tally_eq_count hone hnodup (label_of_tells hrefused hsite htells hcounts)]
  case unrecorded =>
    intro key hkey
    have hnone : tally (roster plan {} tree).tags key original.history = 0 := by
      rw [tally, List.countP_eq_zero]
      intro event _ hevent
      have hlabel := mem_of_keyFor (of_decide_eq_true hevent)
      have hmem : key ∈ keysOf (roster plan {} tree).tags := List.mem_filterMap.2 ⟨_, hlabel, rfl⟩
      exact hkey (hkeys ▸ henrols.keys.subset hmem)
    rw [hdue key, if_pos hnone]

/-- A loop over two values. -/
def shortLoop : Node :=
  .mk 0 .module {} [.many
    [.mk 1 (.forLoop false) ⟨some 1, some 0, some 2, some 6⟩
      [.child (.mk 2 (.plain .name) (placeAt 1 4) [.text "x", .child (.mk 3 (.plain .store) {} [])]),
        .child (.mk 4 (.plain .tuple) ⟨some 1, some 9, some 1, some 15⟩
          [.many [.mk 5 (.plain .constant) (placeAt 1 10) [.constant (.int 1), .none],
            .mk 6 (.plain .constant) (placeAt 1 13) [.constant (.int 2), .none]],
            .child (.mk 7 (.plain .load) {} [])]),
        .many [.mk 8 (.plain .pass) (placeAt 2 2) []], .many [], .none]],
    .many []]

def newLedger : Memory := { ledgers := #[{}] }

-- The loop goes round twice and ends once.
example : (instrument { filename := "m.py" } {} 9 shortLoop).toOption.map (fun i ↦
    i.record.keys.map (((execute ⟨20, 20⟩ i.tree "m.py" "__countcov__" 0 {} newLedger).memory.ledger 0).count "m.py")) =
      some [1, 2, 1, 2] := by
  decide +kernel

end Coverage.Pass
