import Coverage.Proofs.Pass.Progress

/-!
# The single steps of a walk

What each step does that a walk is made of: marking, putting in a probe, and registering units and groups.
A step that puts in a probe leaves the record alone, and one that registers leaves the marks alone.
-/

namespace Coverage.Pass

open Syntax Program

variable {plan : Plan} {marks : Marks} {first : NodeId} {ids : List NodeId} {s s' : State} {ε : Type}

/-! ## Marks and probes -/

/-- Marking a node of the tree is a step of a walk. -/
theorem walked_mark {i : NodeId} (hi : i ∈ ids) : Walked plan ids [] [] s (mark i s).2 where
  next_le := Nat.le_refl _
  grows := Marks.among_mark s.marks i
  frame j _ hj := by
    change (s.marks.mark i).contains j = s.marks.contains j
    rw [Marks.contains_mark]
    have hne : (j == i) = false := by
      rw [beq_eq_false_iff_ne]
      rintro rfl
      exact hj hi
    simp [hne]
  record := rfl
  tagged := rfl
  refused := by
    change refusals s.notes = refusals s.notes ++ []
    simp
  armed := by simp

/-- A probe is put in, and all its nodes are marked. -/
theorem part_inject {α : Type} {size : Nat} {build : NodeId → Node} (g : Node → α) {P : Marks → α → Prop}
    (h : ∀ final j, Fresh first final size j → P final (g (build j))) :
    Part plan marks first [] [] [] (liftM (do return g (← inject size build) : StateM State α) :
      ExceptT ε (StateM State) α) fun final t a ↦ t = [] ∧ P final a := by
  refine .lift fun s hs ↦ ⟨?_, fun final hfinal ↦ h final s.next ⟨hs, fun k hk ↦ hfinal _ ?_⟩⟩
  · exact {
      next_le := Nat.le_add_right ..
      grows := Marks.among_markRange s.marks s.next size
      frame := fun j hj _ ↦ Marks.contains_markRange_of_lt _ _ _ _ hj
      record := rfl
      tagged := rfl
      refused := (List.append_nil _).symm
      armed := fun _ ↦ List.forall_mem_nil _ }
  · exact Marks.contains_markRange _ _ _ _ hk

theorem contains_of_mark {i : NodeId} {final : Marks} (h : (mark i s).2.marks.Among final) :
    final.contains i = true := by
  apply h i
  change (s.marks.mark i).contains i = true
  simp [Marks.contains_mark]

theorem part_mark (i : NodeId) :
    Part plan marks first [i] [] [] (liftM (mark i) : ExceptT ε (StateM State) Unit) fun final t _ ↦
      t = [] ∧ final.contains i = true :=
  .lift fun _ _ ↦ ⟨walked_mark (List.mem_singleton.2 rfl), fun _ hfinal ↦ contains_of_mark hfinal⟩

/-- After a part, the node that it is about may be marked. -/
theorem part_bind_markNode {α β : Type} {own own' ids' : List NodeId} {sites sites' : List Site} {n : Node}
    {x : ExceptT ε (StateM State) α} {f : α → ExceptT ε (StateM State) β} {R : Marks → List Tag → α → Prop}
    {Q : Marks → List Tag → β → Prop} (hn : ∀ i c p fs, n = .mk i c p fs → i ∈ own)
    (hx : Part plan marks first own ids sites x R)
    (hf : ∀ t a, (∃ final, R final t a) → Part plan marks first own' ids' sites' (f a) fun final t' b ↦
      (n ≠ .gap → final.holds n = true) ∧ R final t a → Q final (t ++ t') b) :
    Part plan marks first (own ++ own') (ids ++ ids') (sites ++ sites') (do let a ← x; markNode n; f a) Q := by
  have hmarked : Part plan marks first own ids sites (do let a ← x; markNode n; return a) fun final t a ↦
      (n ≠ .gap → final.holds n = true) ∧ R final t a := by
    intro s a s' hs hready h
    obtain ⟨b, t, hb, h⟩ := yields_bind.1 h
    obtain ⟨_, u, hu, h⟩ := yields_bind.1 h
    obtain ⟨-, rfl⟩ := yields_lift.1 hu
    obtain ⟨rfl, rfl⟩ := yields_pure.1 h
    obtain ⟨tags, hw, hR⟩ := hx s b t hs hready hb
    cases n with
    | gap => exact ⟨tags, hw, fun final hfinal ↦ ⟨fun hne ↦ absurd rfl hne, hR final hfinal⟩⟩
    | mk i c p fs =>
      have hi : i ∈ own := hn i c p fs rfl
      have hmark : Walked plan own [] [] t (mark i t).2 := walked_mark hi
      have hbelow : ∀ j ∈ ids, j < t.next := fun j hj ↦
        Nat.lt_of_lt_of_le (hready.right.below j hj) hw.next_le
      have hwalked := hw.trans (hmark.mono fun j ↦ List.mem_append_left ids)
      rw [List.append_nil, List.append_nil] at hwalked
      refine ⟨tags, hwalked, fun final hfinal ↦ ⟨fun _ ↦ contains_of_mark hfinal.grows, hR final ?_⟩⟩
      exact hfinal.before hmark hbelow fun j hj hj' ↦ hready.apart j hj' hj
  have hall := hmarked.bind fun t a h ↦ hf t a (h.imp fun _ ↦ And.right)
  simpa only [bind_assoc, pure_bind] using hall

/-- Wrapping an expression. -/
theorem part_wrap (key : Option Key) (e : Node) :
    Part plan marks first [] [] [] (liftM (wrap plan key e) : ExceptT ε (StateM State) Node)
      fun final t e' ↦ t = [] ∧ Wrapped plan first final key e e' := by
  cases key with
  | none => exact .pure fun _ ↦ ⟨rfl, .bare⟩
  | some k =>
    have hwrap : wrap plan (some k) e =
        (do return id (← inject Probe.wrapperSize (Probe.wrapper plan k e)) : StateM State Node) := rfl
    rw [hwrap]
    exact part_inject id fun _ _ fresh ↦ .wrapped fresh

theorem part_countBefore (key : Option Key) (place : Place) :
    Part plan marks first [] [] [] (liftM (countBefore plan key place) : ExceptT ε (StateM State) (Option Node))
      fun final t before ↦ t = [] ∧ ∀ b, Counted plan first final key place b (before.toList ++ b) := by
  cases key with
  | none => exact .pure fun _ ↦ ⟨rfl, fun _ ↦ .bare⟩
  | some k => exact part_inject some fun _ _ fresh ↦ fun _ ↦ .front fresh

/-- Putting a counter in front of a block. -/
theorem part_prepend (key : Option Key) {b : List Node} (hb : b ≠ []) :
    Part plan marks first [] [] [] (liftM (prepend plan key b) : ExceptT ε (StateM State) (List Node))
      fun final t b' ↦ t = [] ∧ Counted plan first final key (anchor b {}) b b' := by
  cases key with
  | none => exact .pure fun _ ↦ ⟨rfl, .bare⟩
  | some k =>
    cases b with
    | nil => exact absurd rfl hb
    | cons n b => exact part_inject (· :: n :: b) fun _ _ fresh ↦ .front fresh

theorem prepend_nil (plan : Plan) (k : Option Key) : prepend plan k [] = pure [] := by
  cases k <;> rfl

theorem finished_cons (slot : Slot) (slots : List Slot) :
    finished (slot :: slots) = slot.counter.toList ++ slot.stmt :: finished slots := by
  simp [finished]

/-- Counting an `else`, which there need not be. -/
theorem part_elseClause (key : Option Key) (header : Place) (slots : List Slot) :
    Part plan marks first [] [] [] (liftM (elseClause plan key header slots) : ExceptT ε (StateM State) (List Node))
      fun final t b' ↦
        t = [] ∧ Counted plan first final key (anchor (finished slots) header) (finished slots) b' := by
  cases slots with
  | nil =>
      cases key with
    | none => exact .pure fun _ ↦ ⟨rfl, .bare⟩
    | some k => exact part_inject ([·]) fun _ _ fresh ↦ .front fresh
  | cons slot slots =>
    have hne : finished (slot :: slots) ≠ [] := by simp [finished_cons]
    have hanchor : anchor (finished (slot :: slots)) header = anchor (finished (slot :: slots)) {} := by
      cases hb : finished (slot :: slots) with
      | nil => exact absurd hb hne
      | cons n b => rfl
    have hclause : elseClause plan key header (slot :: slots) = prepend plan key (finished (slot :: slots)) := by
      cases key <;> rfl
    rw [hanchor, hclause]
    exact part_prepend key hne

theorem part_countEntry (key : Option Key) (doc : Bool) {b : List Node} (hb : b ≠ []) :
    Part plan marks first [] [] [] (liftM (countEntry plan key doc b) : ExceptT ε (StateM State) (List Node))
      fun final t b' ↦ t = [] ∧ Entered plan first final key doc b b' := by
  cases key with
  | none => exact .pure fun _ ↦ ⟨rfl, .bare⟩
  | some k =>
    match b, doc, hb with
    | [n], false, _ => exact part_inject ([·, n]) fun _ _ fresh ↦ .front fresh
    | n :: m :: b, false, _ => exact part_inject (· :: n :: m :: b) fun _ _ fresh ↦ .front fresh
    | [d], true, _ => exact part_inject ([d, ·]) fun _ _ fresh ↦ .last fresh
    | d :: n :: b, true, _ => exact part_inject (d :: · :: n :: b) fun _ _ fresh ↦ .behind fresh

theorem part_addFallback (key : Option Key) (subject : Node) (cs : List Node) :
    Part plan marks first [] [] [] (liftM (addFallback plan key subject cs) : ExceptT ε (StateM State) (List Node))
      fun final t cs' ↦ t = [] ∧ Completed plan first final key subject.place cs cs' := by
  cases key with
  | none => exact .pure fun _ ↦ ⟨rfl, .bare⟩
  | some k => exact part_inject (cs ++ [·]) fun _ _ fresh ↦ .fallback fresh

/-- The keys of the arms of a construct, as far as they are counted. -/
def settledKeys (construct : Construct) (keys : List (Option Key)) : List (Option Key) :=
  if construct = .tryBody ∧ keys.any (·.isNone) then keys.map fun _ ↦ none else keys

theorem part_guardBody (k₀ k₁ : Option Key) {b : List Node} (hb : b ≠ []) :
    Part plan marks first [] [] [] (liftM (guardBody plan [k₀, k₁] b) : ExceptT ε (StateM State) (List Node))
      fun final t b' ↦ t = [] ∧ ∃ k₀' k₁', settledKeys .tryBody [k₀, k₁] = [k₀', k₁'] ∧
        Guarded plan first final k₀' k₁' b b' := by
  match k₀, k₁, b, hb with
  | some ok, some error, n :: b, _ => exact part_inject ([·]) fun _ _ fresh ↦ ⟨_, _, rfl, .guarded fresh⟩
  | none, none, _, _ => exact .pure fun _ ↦ ⟨rfl, _, _, rfl, .bare⟩
  | none, some _, _, _ => exact .pure fun _ ↦ ⟨rfl, _, _, rfl, .bare⟩
  | some _, none, _, _ => exact .pure fun _ ↦ ⟨rfl, _, _, rfl, .bare⟩

/-- Noting that a statement is excluded. -/
theorem part_noteExcluded (n : Node) :
    Part plan marks first [] [] [] (noteExcluded n) fun _ t _ ↦ t = [] := by
  intro s u s' _ _ h
  refine ⟨[], ?_, fun _ _ ↦ rfl⟩
  cases n with
  | gap =>
    obtain ⟨-, rfl⟩ := yields_pure.1 h
    exact .refl
  | mk i c p fs =>
    simp only [noteExcluded] at h
    split at h
    next line _ =>
      obtain ⟨-, rfl⟩ := yields_lift.1 h
      refine ⟨Nat.le_refl _, fun _ h ↦ h, fun _ _ _ ↦ rfl, rfl, rfl, ?_, by simp⟩
      change refusals (s.notes ++ [.excluded c line]) = refusals s.notes ++ []
      simp [refusals]
    next => exact absurd h not_yields_throw

/-! ## Registration -/

/-- What a registration does to a state: it leads to the record of an enrolment and remarks what that one
refused. -/
structure Registered (e : Enrolment) (s s' : State) : Prop where
  record : e.record = s'.record
  refused : refusals s'.notes = refusals s.notes ++ e.refused
  marks : s'.marks = s.marks
  next : s'.next = s.next

theorem Registered.andThen {e f : Enrolment} {s t u : State} (h : Registered e s t) (h' : Registered f t u) :
    Registered (e.andThen f) s u where
  record := h'.record
  refused := by
    rw [h'.refused, h.refused]
    exact List.append_assoc ..
  marks := h'.marks.trans h.marks
  next := h'.next.trans h.next

/-- A registration is the walk of a single site. -/
theorem Registered.walked {site : Site} (h : Registered (enrol plan s.record site) s s')
    (armed : plan.counts .branch = true → site.Armed) :
    Walked plan ids [site] (enrol plan s.record site).tags s s' where
  next_le := Nat.le_of_eq h.next.symm
  grows i hi := by rwa [h.marks]
  frame i _ _ := by rw [h.marks]
  record := h.record
  tagged := by simp [Enrolment.andThen]
  refused := by
    rw [h.refused]
    simp [Enrolment.andThen]
  armed := by simpa using armed

/-- Registering is adding to the record, with a note if the key is taken. -/
theorem register_eq (e : Entry Kind) (s : State) : register e s =
    if (s.record.add e).1 then (some e.key, { s with record := (s.record.add e).2 })
    else (none, { s with record := (s.record.add e).2, notes := s.notes ++ [.refused e.key] }) := by
  unfold register
  change ((if (s.record.add e).1 = true then _ else _ : StateM State (Option Key)) _) = _
  split <;> rfl

theorem register_spec (event : Event) (e : Entry Kind) :
    Registered (offer s.record event e) s (register e s).2 ∧
      (offer s.record event e).tags = [.label event (register e s).1] := by
  rw [register_eq]
  unfold offer
  split
  · exact ⟨⟨rfl, by simp, rfl, rfl⟩, rfl⟩
  · refine ⟨⟨rfl, ?_, rfl, rfl⟩, rfl⟩
    simp [refusals]

/-- A unit is registered as its site is enrolled. -/
theorem registerUnit_spec {kind : Kind} {n : Node} {name : Option String} {key : Option Key} (event : Event)
    (h : Yields (registerUnit plan kind n name) s key s') :
    Walked plan ids [.unit event kind (spanOf n) name] [.label event key] s s' := by
  unfold registerUnit at h
  by_cases hc : plan.counts kind = true
  · rw [if_pos hc] at h
    obtain ⟨span, t, hspan, h⟩ := yields_bind.1 h
    obtain ⟨hlocate, rfl⟩ := yields_located.1 hspan
    obtain ⟨rfl, rfl⟩ := yields_lift.1 h
    have hof : spanOf n = span := spanOf_eq hlocate
    obtain ⟨hreg, htags⟩ := register_spec (s := s) event { key := keyOf kind span, kind, span, name }
    have hsite : enrol plan s.record (.unit event kind (spanOf n) name) =
        offer s.record event { key := keyOf kind span, kind, span, name } := by
      simp [enrol, hc, hof]
    rw [← htags, ← hsite]
    exact Registered.walked (hsite ▸ hreg) fun _ ↦ trivial
  · rw [if_neg hc] at h
    obtain ⟨rfl, rfl⟩ := yields_pure.1 h
    have hsite : enrol plan s.record (.unit event kind (spanOf n) name) =
        ⟨s.record, [.label event none], [], []⟩ := by
      simp [enrol, hc]
    have hreg : Registered (enrol plan s.record (.unit event kind (spanOf n) name)) s s := by
      rw [hsite]
      exact ⟨rfl, by simp, rfl, rfl⟩
    have hwalked : Walked plan ids _ _ s s := hreg.walked fun _ ↦ trivial
    simpa [hsite] using hwalked

/-- Arms are registered as they are offered. -/
theorem registerArms_spec (group : Int) (a : Nat) (arms : List (Event × Span)) (s : State) :
    Registered (offerArms group a arms s.record) s (registerArms group a (arms.map (·.2)) s).2 ∧
      (offerArms group a arms s.record).tags =
        List.zipWith Tag.label (arms.map (·.1)) (registerArms group a (arms.map (·.2)) s).1 ∧
      (registerArms group a (arms.map (·.2)) s).1.length = arms.length := by
  induction arms generalizing a s with
  | nil => exact ⟨⟨rfl, by simp [offerArms, registerArms]; rfl, rfl, rfl⟩, rfl, rfl⟩
  | cons arm arms ih =>
    obtain ⟨event, span⟩ := arm
    obtain ⟨hreg, htags⟩ := register_spec (s := s) event (armEntry group a span)
    obtain ⟨hregs, htagss, hlength⟩ := ih (a + 1) (register (armEntry group a span) s).2
    rw [← hreg.record] at hregs htagss
    refine ⟨hreg.andThen hregs, ?_, ?_⟩
    · change (offer s.record event (armEntry group a span)).tags ++ _ = _
      rw [htags, htagss]
      rfl
    · exact congrArg (· + 1) hlength

/-- Labels are settled by settling their keys. -/
theorem settle_zipWith (construct : Construct) (events : List Event) (keys : List (Option Key))
    (h : keys.length = events.length) :
    settle construct (List.zipWith Tag.label events keys) =
      List.zipWith Tag.label events (settledKeys construct keys) := by
  have hany : (List.zipWith Tag.label events keys).any (·.key?.isNone) = keys.any (·.isNone) := by
    induction events generalizing keys with
    | nil => cases keys <;> simp_all
    | cons event events ih =>
      cases keys with
      | nil => simp at h
      | cons key keys => simp [ih keys (by simpa using h)]
  have hmap : (List.zipWith Tag.label events keys).map Tag.unlabelled =
      List.zipWith Tag.label events (keys.map fun _ ↦ none) := by
    rw [List.map_zipWith, List.zipWith_map_right]
    rfl
  unfold settle settledKeys
  rw [hany, hmap]
  split <;> rfl

/-- A group is registered as its fork is enrolled. -/
theorem registerGroup_spec {construct : Construct} {n : Node} {keys : List (Option Key)}
    (arms : List (Event × Span)) (h : Yields (registerGroup plan construct n (arms.map (·.2))) s keys s') :
    Walked plan ids [.fork construct (spanOf n) arms]
        (List.zipWith Tag.label (arms.map (·.1)) (settledKeys construct keys)) s s' ∧
      keys.length = arms.length := by
  unfold registerGroup at h
  by_cases hc : plan.counts .branch = true
  · rw [if_pos hc] at h
    obtain ⟨span, t, hspan, h⟩ := yields_bind.1 h
    obtain ⟨hlocate, rfl⟩ := yields_located.1 hspan
    obtain ⟨_, t, hget, h⟩ := yields_bind.1 h
    obtain ⟨rfl, rfl⟩ := yields_get.1 hget
    rw [List.length_map] at h
    split at h
    next => exact absurd h not_yields_throw
    next group record hadd =>
      obtain ⟨_, t, hmodify, h⟩ := yields_bind.1 h
      obtain rfl := yields_modify.1 hmodify
      obtain ⟨rfl, rfl⟩ := yields_lift.1 h
      obtain ⟨hreg, htags, hlength⟩ := registerArms_spec group.id 0 arms { s with record }
      have hsite : enrol plan s.record (.fork construct (spanOf n) arms) =
          { offerArms group.id 0 arms record with
            tags := settle construct (offerArms group.id 0 arms record).tags } := by
        simp [enrol, hc, spanOf_eq hlocate, hadd]
      refine ⟨?_, hlength⟩
      rw [← settle_zipWith _ _ _ (by simpa using hlength), ← htags]
      have hfork : Registered (enrol plan s.record (.fork construct (spanOf n) arms)) s
          (registerArms group.id 0 (arms.map (·.2)) { s with record }).2 := by
        rw [hsite]
        exact ⟨hreg.record, hreg.refused, hreg.marks, hreg.next⟩
      have harms : arms ≠ [] := by
        rintro rfl
        simp [Metadata.addGroup] at hadd
      have hwalked : Walked plan ids _ _ s _ := hfork.walked fun _ ↦ harms
      rw [hsite] at hwalked
      exact hwalked
  · rw [if_neg hc] at h
    obtain ⟨rfl, rfl⟩ := yields_pure.1 h
    have hsite : enrol plan s.record (.fork construct (spanOf n) arms) =
        ⟨s.record, arms.map fun arm ↦ .label arm.1 none, [], []⟩ := by
      simp [enrol, hc]
    have htags : List.zipWith Tag.label (arms.map (·.1))
        (settledKeys construct ((arms.map (·.2)).map fun _ ↦ none)) =
          arms.map fun arm ↦ .label arm.1 none := by
      unfold settledKeys
      split <;> simp [List.zipWith_map, List.zipWith_self]
    refine ⟨?_, by simp⟩
    have hfork : Registered (enrol plan s.record (.fork construct (spanOf n) arms)) s s := by
      rw [hsite]
      exact ⟨rfl, by simp, rfl, rfl⟩
    have hwalked : Walked plan ids _ _ s s := hfork.walked fun h ↦ absurd h hc
    rw [hsite] at hwalked
    rw [htags]
    exact hwalked

end Coverage.Pass
