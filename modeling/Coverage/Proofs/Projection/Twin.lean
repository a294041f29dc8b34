import Coverage.Proofs.Metadata
import Coverage.Proofs.Pass.Primitive
import Coverage.Proofs.Projection.View

/-!
# Two passes side by side

The same walk is taken twice: by a pass that counts every kind, and by one that counts only the kept kinds.
Keys of different kinds are different, so what the second pass registers never depends on what it leaves
out, and its record is at every moment the part of the first record that the kept kinds make up. `Twin` says
this of a step: if the first pass is not stopped there, neither is the second, and what they give is related.
-/

namespace Coverage

/-! ## Records -/

/-- The second record is the part of the first that is about the kept kinds. -/
structure Metadata.Restricts (kept : Kind → Bool) (m m' : Metadata Kind) : Prop where
  tidy : m.Tidy
  tidy' : m'.Tidy
  keyed : ∀ e ∈ m.entries, e.key = keyOf e.kind e.span
  entries : m'.entries = m.entries.filter fun e ↦ kept e.kind
  groups : m'.groups = if kept .branch then m.groups else []

namespace Metadata.Restricts

variable {kept : Kind → Bool} {m m' : Metadata Kind} {e : Entry Kind}

/-- A key of a kept kind is taken in both records or in none. -/
theorem mem_keys (h : m.Restricts kept m') {kind : Kind} {span : Span} (hkind : kept kind = true) :
    keyOf kind span ∈ m'.keys ↔ keyOf kind span ∈ m.keys := by
  rw [keys, keys, h.entries, List.mem_map, List.mem_map]
  constructor
  · rintro ⟨e, he, hkey⟩
    exact ⟨e, (List.mem_filter.1 he).1, hkey⟩
  · rintro ⟨e, he, hkey⟩
    have hsame : e.kind = kind := (keyOf_inj ((h.keyed e he).symm.trans hkey)).1
    exact ⟨e, List.mem_filter.2 ⟨he, by rw [hsame, hkind]⟩, hkey⟩

/-- An entry of the first record has a place in the second if its kind is kept. -/
theorem add_of_kept (h : m.Restricts kept m') (hkey : e.key = keyOf e.kind e.span) (hkind : kept e.kind = true)
    (hgroup : ∀ id, e.group = some id → id < m.groups.length) (hgroup' : e.group ≠ none → kept .branch = true) :
    (m'.add e).1 = (m.add e).1 ∧ (m.add e).2.Restricts kept (m'.add e).2 := by
  have hmem : e.key ∈ m'.keys ↔ e.key ∈ m.keys := by
    rw [hkey]
    exact h.mem_keys hkind
  by_cases htaken : e.key ∈ m.keys
  · rw [h.tidy.add_of_mem htaken, h.tidy'.add_of_mem (hmem.2 htaken)]
    exact ⟨rfl, h⟩
  · have htaken' : e.key ∉ m'.keys := fun hin ↦ htaken (hmem.1 hin)
    have hgroups : ∀ id, e.group = some id → id < m'.groups.length := by
      intro id hid
      rw [h.groups, if_pos (hgroup' (by simp [hid]))]
      exact hgroup id hid
    have htidy := h.tidy.add htaken hgroup
    have htidy' := h.tidy'.add htaken' hgroups
    rw [h.tidy.add_of_not_mem htaken] at htidy ⊢
    rw [h.tidy'.add_of_not_mem htaken'] at htidy' ⊢
    refine ⟨rfl, htidy, htidy', ?_, ?_, h.groups⟩
    · intro e' he'
      rcases List.mem_append.1 he' with he' | he'
      · exact h.keyed e' he'
      · obtain rfl := List.mem_singleton.1 he'
        exact hkey
    · simp [h.entries, hkind]

/-- An entry of a kind that is not kept is added on one side only. -/
theorem add_of_dropped (h : m.Restricts kept m') (hkey : e.key = keyOf e.kind e.span) (hkind : kept e.kind = false)
    (hgroup : ∀ id, e.group = some id → id < m.groups.length) : (m.add e).2.Restricts kept m' := by
  by_cases htaken : e.key ∈ m.keys
  · rw [h.tidy.add_of_mem htaken]
    exact h
  · have htidy := h.tidy.add htaken hgroup
    rw [h.tidy.add_of_not_mem htaken] at htidy ⊢
    refine ⟨htidy, h.tidy', ?_, ?_, h.groups⟩
    · intro e' he'
      rcases List.mem_append.1 he' with he' | he'
      · exact h.keyed e' he'
      · obtain rfl := List.mem_singleton.1 he'
        exact hkey
    · simp [h.entries, hkind]

theorem groups_add (h : m.Restricts kept m') (e : Entry Kind) : (m.add e).2.groups = m.groups := by
  by_cases htaken : e.key ∈ m.keys
  · rw [h.tidy.add_of_mem htaken]
  · rw [h.tidy.add_of_not_mem htaken]

/-- A group gets the same number in both records. -/
theorem addGroup_of_kept (h : m.Restricts kept m') (hkind : kept .branch = true) (construct : Construct) (arms : Int)
    (span : Span) : m'.nextGroup construct arms span = m.nextGroup construct arms span ∧
      { m with groups := m.groups ++ [m.nextGroup construct arms span] : Metadata Kind }.Restricts kept
        { m' with groups := m'.groups ++ [m'.nextGroup construct arms span] } := by
  have hgroups : m'.groups = m.groups := by rw [h.groups, if_pos hkind]
  have hnext : m'.nextGroup construct arms span = m.nextGroup construct arms span := by
    rw [nextGroup, nextGroup, hgroups]
  refine ⟨hnext, h.tidy.addGroup construct arms span, h.tidy'.addGroup construct arms span, h.keyed, h.entries, ?_⟩
  rw [if_pos hkind]
  simp [hgroups, hnext]

theorem addGroup_of_dropped (h : m.Restricts kept m') (hkind : kept .branch = false) (construct : Construct)
    (arms : Int) (span : Span) :
    { m with groups := m.groups ++ [m.nextGroup construct arms span] : Metadata Kind }.Restricts kept m' where
  tidy := h.tidy.addGroup construct arms span
  tidy' := h.tidy'
  keyed := h.keyed
  entries := h.entries
  groups := by simpa [hkind] using h.groups

end Metadata.Restricts

namespace Pass

open Syntax

/-! ## States and steps -/

/-- The states of the two passes. The identities below `first` are those of the tree; only the marks on these
matter for the walk. -/
structure Linked (first : NodeId) (kept : Kind → Bool) (s s' : State) : Prop where
  next : first ≤ s.next
  next' : first ≤ s'.next
  marks : ∀ i < first, s.marks.contains i = s'.marks.contains i
  record : s.record.Restricts kept s'.record

/-- If the first step is not stopped, neither is the second, and they give related things. -/
def Twin {ε ε' α α' : Type} (first : NodeId) (kept : Kind → Bool) (x : ExceptT ε (StateM State) α)
    (x' : ExceptT ε' (StateM State) α') (R : α → α' → Prop) : Prop :=
  ∀ s s' a t, Linked first kept s s' → Yields x s a t →
    ∃ a' t', Yields x' s' a' t' ∧ Linked first kept t t' ∧ R a a'

variable {ε ε' δ δ' α α' β β' : Type} {first : NodeId} {kept : Kind → Bool}

namespace Twin

variable {x : ExceptT ε (StateM State) α} {x' : ExceptT ε' (StateM State) α'} {R : α → α' → Prop}

theorem pure {a : α} {a' : α'} (h : R a a') :
    Twin first kept (pure a : ExceptT ε (StateM State) α) (pure a' : ExceptT ε' (StateM State) α') R := by
  intro s s' b t hs hx
  obtain ⟨rfl, rfl⟩ := yields_pure.1 hx
  exact ⟨a', s', yields_pure.2 ⟨rfl, rfl⟩, hs, h⟩

/-- Related steps in a row. -/
theorem bind {f : α → ExceptT ε (StateM State) β} {f' : α' → ExceptT ε' (StateM State) β'} {Q : β → β' → Prop}
    (hx : Twin first kept x x' R) (hf : ∀ a a', R a a' → Twin first kept (f a) (f' a') Q) :
    Twin first kept (x >>= f) (x' >>= f') Q := by
  intro s s' b u hs hb
  obtain ⟨a, t, ha, hb⟩ := yields_bind.1 hb
  obtain ⟨a', t', ha', ht, hR⟩ := hx s s' a t hs ha
  obtain ⟨b', u', hb', hu, hQ⟩ := hf a a' hR t t' b u ht hb
  exact ⟨b', u', yields_bind.2 ⟨a', t', ha', hb'⟩, hu, hQ⟩

theorem within {x : Visit ε α} {x' : Visit ε' α'} {f : ε → δ} {f' : ε' → δ'} (hx : Twin first kept x x' R) :
    Twin first kept (within f x) (within f' x') R := by
  intro s s' a t hs ha
  obtain ⟨a', t', ha', h⟩ := hx s s' a t hs (yields_within.1 ha)
  exact ⟨a', t', yields_within.2 ha', h⟩

theorem leaving {x : Pass.Step α} {x' : Pass.Step α'} {left : ε} {left' : ε'} (hx : Twin first kept x x' R) :
    Twin first kept (leaving left x) (leaving left' x') R := by
  intro s s' a t hs ha
  obtain ⟨a', t', ha', h⟩ := hx s s' a t hs (yields_leaving.1 ha)
  exact ⟨a', t', yields_leaving.2 ha', h⟩

/-- Steps that cannot be stopped. -/
theorem lift {x : StateM State α} {x' : StateM State α'}
    (h : ∀ s s', Linked first kept s s' → Linked first kept (x s).2 (x' s').2 ∧ R (x s).1 (x' s').1) :
    Twin first kept (liftM x : ExceptT ε (StateM State) α) (liftM x' : ExceptT ε' (StateM State) α') R := by
  intro s s' a t hs hx
  obtain ⟨rfl, rfl⟩ := yields_lift.1 hx
  exact ⟨_, _, yields_lift.2 ⟨rfl, rfl⟩, h s s' hs⟩

/-- The first pass takes a step of which there is nothing in the second. -/
theorem left {a' : α'} (h : ∀ s s' a t, Linked first kept s s' → Yields x s a t → Linked first kept t s' ∧ R a a') :
    Twin first kept x (Pure.pure a' : ExceptT ε' (StateM State) α') R := by
  intro s s' a t hs hx
  exact ⟨a', s', yields_pure.2 ⟨rfl, rfl⟩, h s s' a t hs hx⟩

/-- Both passes read linked states. -/
theorem get {f : State → ExceptT ε (StateM State) α} {f' : State → ExceptT ε' (StateM State) α'}
    (hf : ∀ s s', Linked first kept s s' → Twin first kept (f s) (f' s') R) :
    Twin first kept (get >>= f) (get >>= f') R := by
  intro s s' a t hs ha
  obtain ⟨_, _, hget, ha⟩ := yields_bind.1 ha
  obtain ⟨rfl, rfl⟩ := yields_get.1 hget
  obtain ⟨a', t', ha', h⟩ := hf s s' hs s s' a t hs ha
  exact ⟨a', t', yields_bind.2 ⟨s', s', yields_get.2 ⟨rfl, rfl⟩, ha'⟩, h⟩

/-- Both passes see the same marks on the nodes of the tree. -/
theorem isMarked {n : Node} (old : Before first n.ids) {f : Bool → ExceptT ε (StateM State) α}
    {f' : Bool → ExceptT ε' (StateM State) α'} (hf : ∀ b, Twin first kept (f b) (f' b) R) :
    Twin first kept (liftM (isMarked n) >>= f) (liftM (isMarked n) >>= f') R := by
  refine Twin.bind (R := fun b b' ↦ b = b') (.lift fun s s' hs ↦ ⟨hs, ?_⟩) ?_
  · change s.marks.holds n = s'.marks.holds n
    cases n with
    | gap => rfl
    | mk i c p fs =>
      rw [Node.ids, before_cons] at old
      exact hs.marks i old.1
  · rintro b _ rfl
    exact hf b

theorem located (a : Except Unlocated α) :
    Twin first kept (located a) (located a) fun b b' ↦ a = .ok b ∧ b = b' := by
  intro s s' b t hs hb
  obtain ⟨rfl, rfl⟩ := yields_located.1 hb
  exact ⟨b, s', yields_located.2 ⟨rfl, rfl⟩, hs, rfl, rfl⟩

end Twin

/-! ## Marks and fresh nodes -/

namespace Linked

variable {s s' : State}

theorem withRecord {record record' : Metadata Kind} (h : Linked first kept s s')
    (hrecord : record.Restricts kept record') :
    Linked first kept { s with record } { s' with record := record' } :=
  ⟨h.next, h.next', h.marks, hrecord⟩

theorem mark (h : Linked first kept s s') (i : NodeId) : Linked first kept (Pass.mark i s).2 (Pass.mark i s').2 where
  next := h.next
  next' := h.next'
  marks j hj := by
    change (s.marks.mark i).contains j = (s'.marks.mark i).contains j
    rw [Marks.contains_mark, Marks.contains_mark, h.marks j hj]
  record := h.record

/-- Nodes that only the first pass puts in. -/
theorem inject (h : Linked first kept s s') (size : Nat) (build : NodeId → Node) :
    Linked first kept (Pass.inject size build s).2 s' where
  next := Nat.le_add_right_of_le h.next
  next' := h.next'
  marks j hj := by
    rw [← h.marks j hj]
    exact Marks.contains_markRange_of_lt _ _ _ _ (Nat.lt_of_lt_of_le hj h.next)
  record := h.record

/-- Nodes that only the second pass puts in. -/
theorem inject' (h : Linked first kept s s') (size : Nat) (build : NodeId → Node) :
    Linked first kept s (Pass.inject size build s').2 where
  next := h.next
  next' := Nat.le_add_right_of_le h.next'
  marks j hj := by
    rw [h.marks j hj]
    exact (Marks.contains_markRange_of_lt _ _ _ _ (Nat.lt_of_lt_of_le hj h.next')).symm
  record := h.record

end Linked

theorem twin_mark (i : NodeId) : Twin first kept (liftM (mark i) : ExceptT ε (StateM State) Unit)
    (liftM (mark i) : ExceptT ε' (StateM State) Unit) fun _ _ ↦ True :=
  .lift fun _ _ hs ↦ ⟨hs.mark i, trivial⟩

theorem twin_markNode (n : Node) : Twin first kept (liftM (markNode n) : ExceptT ε (StateM State) Unit)
    (liftM (markNode n) : ExceptT ε' (StateM State) Unit) fun _ _ ↦ True := by
  cases n with
  | gap => exact .pure trivial
  | mk i c p fs => exact twin_mark i

theorem twin_noteExcluded (n : Node) : Twin first kept (noteExcluded n) (noteExcluded n) fun _ _ ↦ True := by
  cases n with
  | gap => exact .pure trivial
  | mk i c p fs =>
    cases hline : p.line with
    | none =>
      simp only [noteExcluded, hline]
      exact fun _ _ _ _ _ h ↦ absurd h not_yields_throw
    | some line =>
      simp only [noteExcluded, hline]
      exact .lift fun s s' hs ↦ ⟨⟨hs.next, hs.next', hs.marks, hs.record⟩, trivial⟩

/-! ## Registration -/

/-- The keys that the two passes get for a unit of a kind. -/
inductive Projected (kept : Kind → Bool) (kind : Kind) : Option Key → Option Key → Prop
  | refused : Projected kept kind none none
  | counted (key : Key) (hkey : kindOf? key = some kind) (hkind : kept kind = true) :
      Projected kept kind (some key) (some key)
  | dropped (key : Key) (hkey : kindOf? key = some kind) (hkind : kept kind = false) :
      Projected kept kind (some key) none

/-- Registers an entry in both passes. -/
theorem Linked.register {s s' : State} (h : Linked first kept s s') {e : Entry Kind}
    (hkey : e.key = keyOf e.kind e.span) (hkind : kept e.kind = true)
    (hgroup : ∀ id, e.group = some id → id < s.record.groups.length) (hbranch : e.group ≠ none → kept .branch = true) :
    Linked first kept (Pass.register e s).2 (Pass.register e s').2 ∧
      Projected kept e.kind (Pass.register e s).1 (Pass.register e s').1 := by
  obtain ⟨hadded, hrecord⟩ := h.record.add_of_kept hkey hkind hgroup hbranch
  have hof : kindOf? e.key = some e.kind := by rw [hkey, kindOf_keyOf]
  rw [register_eq, register_eq, hadded]
  split
  next => exact ⟨⟨h.next, h.next', h.marks, hrecord⟩, .counted e.key hof hkind⟩
  next => exact ⟨⟨h.next, h.next', h.marks, hrecord⟩, .refused⟩

/-- Registers an entry in the first pass only. -/
theorem Linked.register_left {s s' : State} (h : Linked first kept s s') {e : Entry Kind}
    (hkey : e.key = keyOf e.kind e.span) (hkind : kept e.kind = false)
    (hgroup : ∀ id, e.group = some id → id < s.record.groups.length) :
    Linked first kept (Pass.register e s).2 s' ∧ Projected kept e.kind (Pass.register e s).1 none := by
  have hrecord := h.record.add_of_dropped hkey hkind hgroup
  have hof : kindOf? e.key = some e.kind := by rw [hkey, kindOf_keyOf]
  rw [register_eq]
  split
  next => exact ⟨⟨h.next, h.next', h.marks, hrecord⟩, .dropped e.key hof hkind⟩
  next => exact ⟨⟨h.next, h.next', h.marks, hrecord⟩, .refused⟩

theorem Linked.groups_register {s s' : State} (h : Linked first kept s s') (e : Entry Kind) :
    (Pass.register e s).2.record.groups = s.record.groups := by
  rw [register_eq]
  split <;> exact h.record.groups_add e

/-- The arms of a group are registered in both passes. -/
theorem Linked.registerArms {group : Int} (hkind : kept .branch = true) (spans : List Span) :
    ∀ {a : Nat} {s s' : State}, Linked first kept s s' → group < s.record.groups.length →
      Linked first kept (Pass.registerArms group a spans s).2 (Pass.registerArms group a spans s').2 ∧
        List.Forall₂ (Projected kept .branch) (Pass.registerArms group a spans s).1
          (Pass.registerArms group a spans s').1 := by
  induction spans with
  | nil => exact fun hs _ ↦ ⟨hs, .nil⟩
  | cons span spans ih =>
    intro a s s' hs hgroup
    have hbound : ∀ id, (armEntry group a span).group = some id → id < s.record.groups.length := by
      rintro id ⟨⟩
      exact hgroup
    obtain ⟨hnext, hfirst⟩ := hs.register (e := armEntry group a span) rfl hkind hbound fun _ ↦ hkind
    obtain ⟨hend, hrest⟩ := ih (a := a + 1) hnext (by rwa [hs.groups_register])
    exact ⟨hend, .cons hfirst hrest⟩

theorem Linked.registerArms_left {group : Int} (hkind : kept .branch = false) (spans : List Span) :
    ∀ {a : Nat} {s s' : State}, Linked first kept s s' → group < s.record.groups.length →
      Linked first kept (Pass.registerArms group a spans s).2 s' ∧
        List.Forall₂ (Projected kept .branch) (Pass.registerArms group a spans s).1 (spans.map fun _ ↦ none) := by
  induction spans with
  | nil => exact fun hs _ ↦ ⟨hs, .nil⟩
  | cons span spans ih =>
    intro a s s' hs hgroup
    have hbound : ∀ id, (armEntry group a span).group = some id → id < s.record.groups.length := by
      rintro id ⟨⟩
      exact hgroup
    obtain ⟨hnext, hfirst⟩ := hs.register_left (e := armEntry group a span) rfl hkind hbound
    obtain ⟨hend, hrest⟩ := ih (a := a + 1) hnext (by rwa [hs.groups_register])
    exact ⟨hend, .cons hfirst hrest⟩

variable {plan : Plan}

/-- A unit is registered by both passes if its kind is kept, and by the first pass only if it is not. -/
theorem twin_registerUnit (hall : ∀ kind, plan.counts kind = true) (kind : Kind) (n : Node) (name : Option String) :
    Twin first kept (registerUnit plan kind n name) (registerUnit { plan with counts := kept } kind n name)
      fun k k' ↦ (∃ span, locate n = .ok span) ∧ Projected kept kind k k' := by
  unfold registerUnit
  rw [if_pos (hall kind)]
  by_cases hkind : kept kind = true
  · rw [if_pos hkind]
    refine (Twin.located (locate n)).bind ?_
    rintro span _ ⟨hspan, rfl⟩
    refine .lift fun s s' hs ↦ ?_
    have hreg := hs.register (e := { key := keyOf kind span, kind, span, name }) rfl hkind nofun nofun
    exact ⟨hreg.1, ⟨span, hspan⟩, hreg.2⟩
  · rw [if_neg hkind]
    refine .left fun s s' key t hs h ↦ ?_
    obtain ⟨span, _, hspan, h⟩ := yields_bind.1 h
    obtain ⟨hlocate, rfl⟩ := yields_located.1 hspan
    obtain ⟨rfl, rfl⟩ := yields_lift.1 h
    have hreg := hs.register_left (e := { key := keyOf kind span, kind, span, name }) rfl
      (Bool.eq_false_iff.2 hkind) nofun
    exact ⟨hreg.1, ⟨span, hlocate⟩, hreg.2⟩

/-- The keys of the arms of a construct. -/
abbrev ArmKeys (kept : Kind → Bool) : List (Option Key) → List (Option Key) → Prop :=
  List.Forall₂ (Projected kept .branch)

/-- Both passes register a group or one leaves it out. -/
theorem twin_registerGroup (hall : ∀ kind, plan.counts kind = true) (construct : Construct) (n : Node)
    (arms : List Span) :
    Twin first kept (registerGroup plan construct n arms) (registerGroup { plan with counts := kept } construct n arms)
      (ArmKeys kept) := by
  unfold registerGroup
  rw [if_pos (hall .branch)]
  have hbound (s : State) (span : Span) : (s.record.nextGroup construct arms.length span).id <
      (s.record.groups ++ [s.record.nextGroup construct arms.length span]).length := by
    simp only [Metadata.nextGroup, List.length_append, List.length_singleton]
    omega
  -- A group without arms stops the first pass.
  by_cases harms : (arms.length : Int) < 1
  · intro s s' keys t hs h
    obtain ⟨span, _, hspan, h⟩ := yields_bind.1 h
    obtain ⟨_, _, hget, h⟩ := yields_bind.1 h
    simp only [Metadata.addGroup, if_pos harms] at h
    exact absurd h not_yields_throw
  by_cases hkind : kept .branch = true
  · rw [if_pos hkind]
    refine (Twin.located (locate n)).bind ?_
    rintro span _ ⟨-, rfl⟩
    intro s s' keys t hs h
    obtain ⟨_, _, hget, h⟩ := yields_bind.1 h
    obtain ⟨rfl, rfl⟩ := yields_get.1 hget
    simp only [Metadata.addGroup, if_neg harms] at h
    obtain ⟨_, _, hmodify, h⟩ := yields_bind.1 h
    obtain rfl := yields_modify.1 hmodify
    obtain ⟨rfl, rfl⟩ := yields_lift.1 h
    obtain ⟨hgroup, hrecord⟩ := hs.record.addGroup_of_kept hkind construct arms.length span
    have hregistered := (hs.withRecord hrecord).registerArms (a := 0) hkind arms (hbound s span)
    refine ⟨_, _, yields_bind.2 ⟨s', s', yields_get.2 ⟨rfl, rfl⟩, ?_⟩, hregistered⟩
    simp only [Metadata.addGroup, if_neg harms, hgroup]
    exact yields_bind.2 ⟨(), _, yields_modify.2 rfl, yields_lift.2 ⟨rfl, rfl⟩⟩
  · rw [if_neg hkind]
    refine .left fun s s' keys t hs h ↦ ?_
    obtain ⟨span, _, hspan, h⟩ := yields_bind.1 h
    obtain ⟨-, rfl⟩ := yields_located.1 hspan
    obtain ⟨_, _, hget, h⟩ := yields_bind.1 h
    obtain ⟨rfl, rfl⟩ := yields_get.1 hget
    simp only [Metadata.addGroup, if_neg harms] at h
    obtain ⟨_, _, hmodify, h⟩ := yields_bind.1 h
    obtain rfl := yields_modify.1 hmodify
    obtain ⟨rfl, rfl⟩ := yields_lift.1 h
    have hrecord := hs.record.addGroup_of_dropped (Bool.eq_false_iff.2 hkind) construct arms.length span
    exact (hs.withRecord hrecord).registerArms_left (Bool.eq_false_iff.2 hkind) arms (hbound s span)

end Pass

end Coverage
