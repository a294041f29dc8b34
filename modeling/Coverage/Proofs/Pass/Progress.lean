import Mathlib.Data.List.Nodup
import Coverage.Proofs.Pass.Woven
import Coverage.Proofs.Pass.Yields

/-!
# The progress of a walk

A part of a walk starts in a state in which no node of its part of the tree has been touched, and leads to
one in which no other old node has been touched. `Walked` says this together with what the part did to the
record: it enrolled the sites of its part of the tree, and nothing else. What a part gives depends on the marks
it has made, which are still there at the end of the whole walk, when nothing has touched its nodes any more.
-/

namespace Coverage.Marks

theorem contains_mark (m : Marks) (i j : Syntax.NodeId) : (m.mark i).contains j = (m.contains j || j == i) := by
  unfold mark
  split
  next h =>
    by_cases hji : j = i
    · simp [hji, h]
    · simp [hji]
  next h =>
    change (i :: m.ids).contains j = (m.ids.contains j || j == i)
    rw [List.contains_cons, Bool.or_comm]

theorem contains_markRange_of_lt (m : Marks) (first size j : Nat) (h : j < first) :
    (m.markRange first size).contains j = m.contains j := by
  unfold markRange
  induction size generalizing m first with
  | zero => simp
  | succ size ih =>
    rw [List.range'_succ, List.foldl_cons, ih _ _ (by omega), contains_mark]
    have hne : (j == first) = false := by simpa using Nat.ne_of_lt h
    simp [hne]

theorem contains_markRange_of_le (m : Marks) (first size j : Nat) (h : first + size ≤ j) :
    (m.markRange first size).contains j = m.contains j := by
  unfold markRange
  induction size generalizing m first with
  | zero => simp
  | succ size ih =>
    rw [List.range'_succ, List.foldl_cons, ih _ _ (by omega), contains_mark]
    have hne : (j == first) = false := by simpa using (show j ≠ first by omega)
    simp [hne]

/-- All marks are among others. -/
def Among (m m' : Marks) : Prop := ∀ i, m.contains i = true → m'.contains i = true

theorem Among.holds {m m' : Marks} {n : Syntax.Node} (h : m.Among m') (held : m.holds n = true) :
    m'.holds n = true := by
  cases n with
  | gap => cases held
  | mk i c p fs => exact h i held

theorem among_mark (m : Marks) (i : Syntax.NodeId) : m.Among (m.mark i) := by
  intro j hj
  rw [contains_mark, hj]
  rfl

theorem among_markRange (m : Marks) (first size : Nat) : m.Among (m.markRange first size) := by
  unfold markRange
  induction size generalizing m first with
  | zero => exact fun _ h ↦ h
  | succ size ih =>
    rw [List.range'_succ, List.foldl_cons]
    exact fun i hi ↦ ih _ _ i (among_mark m first i hi)

/-- All identities of a range are marked. -/
theorem contains_markRange (m : Marks) (first size k : Nat) (h : k < size) :
    (m.markRange first size).contains (first + k) = true := by
  induction size generalizing m first k with
  | zero => omega
  | succ size ih =>
    have hstep : m.markRange first (size + 1) = (m.mark first).markRange (first + 1) size := by
      simp [markRange, List.range'_succ]
    rw [hstep]
    cases k with
    | zero =>
      apply among_markRange
      simp [contains_mark]
    | succ k =>
      have hshift : first + (k + 1) = first + 1 + k := by omega
      rw [hshift]
      exact ih _ _ _ (by omega)

end Coverage.Marks

namespace Coverage.Pass

open Syntax Program

/-- The keys that a pass has refused so far. -/
def refusals (notes : List Note) : List Key :=
  notes.filterMap fun
    | .refused key => some key
    | _ => none

/-- The nodes of a part of the tree are told apart by identities that are in use, and none has been marked
since the pass began. -/
structure Ready (marks : Marks) (s : State) (ids : List NodeId) : Prop where
  nodup : ids.Nodup
  below : ∀ i ∈ ids, i < s.next
  marked : ∀ i ∈ ids, s.marks.contains i = marks.contains i

/-- What a part of a walk does: outside `ids` it marks fresh nodes only, and it enrols `sites`. -/
structure Walked (plan : Plan) (ids : List NodeId) (sites : List Site) (tags : List Tag) (s s' : State) : Prop where
  next_le : s.next ≤ s'.next
  grows : s.marks.Among s'.marks
  frame : ∀ i < s.next, i ∉ ids → s'.marks.contains i = s.marks.contains i
  record : (enrolAll plan s.record sites).record = s'.record
  tagged : (enrolAll plan s.record sites).tags = tags
  refused : refusals s'.notes = refusals s.notes ++ (enrolAll plan s.record sites).refused
  armed : plan.counts .branch = true → ∀ site ∈ sites, site.Armed

theorem mem_of_count_le {ids ids' : List NodeId} (few : ∀ i, ids.count i ≤ ids'.count i) : ∀ i ∈ ids, i ∈ ids' :=
  fun i hi ↦ List.count_pos_iff.1 (Nat.lt_of_lt_of_le (List.count_pos_iff.2 hi) (few i))

namespace Ready

variable {marks : Marks} {s s' : State} {ids ids' : List NodeId}

/-- What is ready stays so if nodes are left out. -/
theorem sub (h : Ready marks s ids') (few : ∀ i, ids.count i ≤ ids'.count i) : Ready marks s ids := by
  have hmem := mem_of_count_le few
  refine ⟨?_, fun i hi ↦ h.below i (hmem i hi), fun i hi ↦ h.marked i (hmem i hi)⟩
  rw [List.nodup_iff_count_le_one]
  intro i
  exact Nat.le_trans (few i) (List.nodup_iff_count_le_one.1 h.nodup i)

theorem left (h : Ready marks s (ids ++ ids')) : Ready marks s ids := h.sub fun i ↦ by simp

theorem right (h : Ready marks s (ids ++ ids')) : Ready marks s ids' := h.sub fun i ↦ by simp

theorem apart (h : Ready marks s (ids ++ ids')) : ∀ i ∈ ids, i ∉ ids' :=
  fun i hi hi' ↦ (List.nodup_append.1 h.nodup).2.2 i hi i hi' rfl

/-- A part of the tree stays as it is while another part is walked. -/
theorem after {plan : Plan} {sites : List Site} {tags : List Tag} (h : Ready marks s ids)
    (w : Walked plan ids' sites tags s s') (apart : ∀ i ∈ ids', i ∉ ids) : Ready marks s' ids where
  nodup := h.nodup
  below i hi := Nat.lt_of_lt_of_le (h.below i hi) w.next_le
  marked i hi := by
    rw [w.frame i (h.below i hi) fun hi' ↦ apart i hi' hi]
    exact h.marked i hi

end Ready

namespace Walked

variable {plan : Plan} {ids ids' : List NodeId} {a b : List Site} {x y : List Tag} {s t u : State}

theorem refl : Walked plan ids [] [] s s :=
  ⟨Nat.le_refl _, fun _ h ↦ h, fun _ _ _ ↦ rfl, rfl, rfl, by simp, by simp⟩

theorem mono (h : Walked plan ids a x s t) (sub : ∀ i ∈ ids, i ∈ ids') : Walked plan ids' a x s t :=
  { h with frame := fun i hi hn ↦ h.frame i hi fun hi' ↦ hn (sub i hi') }

/-- Walks in a row. -/
theorem trans (h : Walked plan ids a x s t) (h' : Walked plan ids b y t u) :
    Walked plan ids (a ++ b) (x ++ y) s u where
  next_le := Nat.le_trans h.next_le h'.next_le
  grows i hi := h'.grows i (h.grows i hi)
  frame i hi hn := by
    rw [h'.frame i (Nat.lt_of_lt_of_le hi h.next_le) hn, h.frame i hi hn]
  record := by
    rw [enrolAll_append, h.record]
    exact h'.record
  tagged := by
    rw [enrolAll_append, h.record]
    change (enrolAll plan s.record a).tags ++ (enrolAll plan t.record b).tags = _
    rw [h.tagged, h'.tagged]
  refused := by
    rw [enrolAll_append, h.record, h'.refused, h.refused]
    exact List.append_assoc ..
  armed hc site hsite := (List.mem_append.1 hsite).elim (h.armed hc site) (h'.armed hc site)

end Walked

/-! ## The end of a walk -/

/-- Marks at the end of a walk, as seen from a state that the part with the nodes `ids` leads to: no mark has
been taken away, and the nodes of the part have not been touched any more. -/
structure Closes (ids : List NodeId) (s : State) (final : Marks) : Prop where
  grows : s.marks.Among final
  same : ∀ i ∈ ids, final.contains i = s.marks.contains i

namespace Closes

variable {ids ids' : List NodeId} {s s' : State} {final : Marks}

theorem refl : Closes ids s s.marks := ⟨fun _ h ↦ h, fun _ _ ↦ rfl⟩

theorem mono (h : Closes ids' s final) (sub : ∀ i ∈ ids, i ∈ ids') : Closes ids s final :=
  ⟨h.grows, fun i hi ↦ h.same i (sub i hi)⟩

/-- The end of a walk as seen from an earlier state. -/
theorem before {plan : Plan} {sites : List Site} {tags : List Tag} (h : Closes ids s' final)
    (w : Walked plan ids' sites tags s s') (below : ∀ i ∈ ids, i < s.next) (apart : ∀ i ∈ ids, i ∉ ids') :
    Closes ids s final where
  grows i hi := h.grows i (w.grows i hi)
  same i hi := by rw [h.same i hi, w.frame i (below i hi) (apart i hi)]

end Closes

/-! ## Parts of a walk -/

section Part

variable (plan : Plan) (marks : Marks) (first : NodeId)

/-- Whenever the nodes `own` and `ids` are ready, the part `x` of a walk, if it is not stopped, touches no other
old node and enrols `sites`; what it gives stands in the relation `R` to the marks at the end of the walk and the
tags of these sites. The nodes `own` may still be marked after the part. -/
def Part {ε α : Type} (own ids : List NodeId) (sites : List Site) (x : ExceptT ε (StateM State) α)
    (R : Marks → List Tag → α → Prop) : Prop :=
  ∀ s a s', first ≤ s.next → Ready marks s (own ++ ids) → Yields x s a s' →
    ∃ tags, Walked plan (own ++ ids) sites tags s s' ∧ ∀ final, Closes ids s' final → R final tags a

end Part

namespace Part

variable {plan : Plan} {marks : Marks} {first : NodeId} {ε ε' α β : Type} {own own' ids ids' : List NodeId}
  {sites sites' : List Site} {x : ExceptT ε (StateM State) α} {R R' : Marks → List Tag → α → Prop}

/-- Nodes that are left alone. -/
theorem keep {a : α} (held : ∀ i ∈ own, marks.contains i = true)
    (h : ∀ final, marks.AgreesOn (own ++ ids) final → R final [] a) :
    Part plan marks first own ids [] (pure a : ExceptT ε (StateM State) α) R := by
  intro s b s' _ hready hx
  obtain ⟨rfl, rfl⟩ := yields_pure.1 hx
  refine ⟨[], .refl, fun final hfinal ↦ h final fun i hi ↦ ?_⟩
  have hmarked : s.marks.contains i = marks.contains i := hready.marked i hi
  rcases List.mem_append.1 hi with hi | hi
  · rw [held i hi] at hmarked ⊢
    exact hfinal.grows i hmarked
  · rw [hfinal.same i hi, hmarked]

theorem pure {a : α} (h : ∀ final, R final [] a) :
    Part plan marks first [] [] [] (pure a : ExceptT ε (StateM State) α) R :=
  keep (List.forall_mem_nil _) fun final _ ↦ h final

/-- One part after another. What the first part gives is known at once for some marks, and in the end for the
marks at the end of the walk. -/
theorem bind {f : α → ExceptT ε (StateM State) β} {Q : Marks → List Tag → β → Prop}
    (hx : Part plan marks first own ids sites x R)
    (hf : ∀ t a, (∃ final, R final t a) →
      Part plan marks first own' ids' sites' (f a) fun final t' b ↦ R final t a → Q final (t ++ t') b) :
    Part plan marks first (own ++ own') (ids ++ ids') (sites ++ sites') (x >>= f) Q := by
  intro s b s' hs hready h
  obtain ⟨a, m, ha, hb⟩ := yields_bind.1 h
  have hready : Ready marks s (own ++ ids ++ (own' ++ ids')) := hready.sub fun i ↦ by
    simp only [List.count_append]
    omega
  obtain ⟨t, hw, hR⟩ := hx s a m hs hready.left ha
  have hready' : Ready marks m (own' ++ ids') := hready.right.after hw hready.apart
  obtain ⟨t', hw', hQ⟩ := hf t a ⟨m.marks, hR m.marks .refl⟩ m b s'
    (Nat.le_trans hs hw.next_le) hready' hb
  refine ⟨t ++ t', (hw.mono ?_).trans (hw'.mono ?_), fun final hfinal ↦ ?_⟩
  · grind
  · grind
  · have hbelow : ∀ i ∈ ids, i < m.next := fun i hi ↦
      Nat.lt_of_lt_of_le (hready.left.below i (List.mem_append_right _ hi)) hw.next_le
    have hapart : ∀ i ∈ ids, i ∉ own' ++ ids' := fun i hi ↦ hready.apart i (List.mem_append_right _ hi)
    have hleft : Closes ids m final := (hfinal.mono fun i ↦ List.mem_append_left _).before hw' hbelow hapart
    exact hQ final (hfinal.mono fun i ↦ List.mem_append_right _) (hR final hleft)

/-- A part may be said to touch more nodes, and its sites may be put in another form. -/
theorem conv (hx : Part plan marks first own ids sites x R)
    (few : ∀ i, ids.count i ≤ ids'.count i ∧ own.count i + ids.count i ≤ own'.count i + ids'.count i)
    (same : sites = sites') : Part plan marks first own' ids' sites' x R := by
  subst same
  intro s a s' hs hready h
  have few' : ∀ i, (own ++ ids).count i ≤ (own' ++ ids').count i := fun i ↦ by
    simpa only [List.count_append] using (few i).2
  obtain ⟨t, hw, hR⟩ := hx s a s' hs (hready.sub few') h
  exact ⟨t, hw.mono (mem_of_count_le few'), fun final hfinal ↦
    hR final (hfinal.mono (mem_of_count_le fun i ↦ (few i).1))⟩

/-- Nodes beside a part are marked at the end of the walk if they were at the beginning. -/
theorem beside (ids : List NodeId)
    (hx : Part plan marks first own ids' sites x fun final t a ↦ marks.AgreesOn ids final → R final t a) :
    Part plan marks first own (ids ++ ids') sites x R := by
  intro s a s' hs hready h
  have hready : Ready marks s (ids ++ (own ++ ids')) := hready.sub fun i ↦ by
    simp only [List.count_append]
    omega
  obtain ⟨t, hw, hR⟩ := hx s a s' hs hready.right h
  refine ⟨t, hw.mono (by grind), fun final hfinal ↦ hR final (hfinal.mono fun i ↦ List.mem_append_right _) ?_⟩
  have hleft : Closes ids s final :=
    (hfinal.mono fun i ↦ List.mem_append_left _).before hw hready.left.below hready.apart
  exact fun i hi ↦ (hleft.same i hi).trans (hready.left.marked i hi)

theorem imp (hx : Part plan marks first own ids sites x R) (h : ∀ final t a, R final t a → R' final t a) :
    Part plan marks first own ids sites x R' := by
  intro s a s' hs hready hy
  obtain ⟨t, hw, hR⟩ := hx s a s' hs hready hy
  exact ⟨t, hw, fun final hfinal ↦ h final t a (hR final hfinal)⟩

theorem within {f : ε → ε'} {x : Visit ε α} (hx : Part plan marks first own ids sites x R) :
    Part plan marks first own ids sites (within f x) R :=
  fun s a s' hs hready h ↦ hx s a s' hs hready (yields_within.1 h)

theorem leaving {left : ε} {x : Step α} (hx : Part plan marks first own ids sites x R) :
    Part plan marks first own ids sites (leaving left x) R :=
  fun s a s' hs hready h ↦ hx s a s' hs hready (yields_leaving.1 h)

/-- A step that leaves the record alone. -/
theorem lift {x : StateM State α} {P : Marks → α → Prop}
    (hx : ∀ s, first ≤ s.next →
      Walked plan (own ++ ids) [] [] s (x s).2 ∧ ∀ final, (x s).2.marks.Among final → P final (x s).1) :
    Part plan marks first own ids [] (liftM x : ExceptT ε (StateM State) α) fun final t a ↦ t = [] ∧ P final a := by
  intro s a s' hs _ h
  obtain ⟨rfl, rfl⟩ := yields_lift.1 h
  exact ⟨[], (hx s hs).1, fun final hfinal ↦ ⟨rfl, (hx s hs).2 final hfinal.grows⟩⟩

/-- While the nodes of a part are ready, their marks are those from before the walk. -/
theorem isMarked {n : Node} {f : Bool → ExceptT ε (StateM State) α} (hn : ∀ i ∈ n.ids, i ∈ own ++ ids)
    (hf : Part plan marks first own ids sites (f (marks.holds n)) R) :
    Part plan marks first own ids sites (liftM (isMarked n) >>= f) R := by
  intro s a s' hs hready h
  obtain ⟨b, m, hb, h⟩ := yields_bind.1 h
  obtain ⟨rfl, rfl⟩ := yields_lift.1 hb
  have hsame : s.marks.holds n = marks.holds n := by
    cases n with
    | gap => rfl
    | mk i c p fs => exact hready.marked i (hn i (by simp [Node.ids]))
  exact hf s a s' hs hready (hsame ▸ h)

/-- What a walk reads of the state are the marks on its own nodes. -/
theorem get {f : State → ExceptT ε (StateM State) α}
    (hf : ∀ s : State, (∀ i ∈ own ++ ids, s.marks.contains i = marks.contains i) →
      Part plan marks first own ids sites (f s) R) :
    Part plan marks first own ids sites (get >>= f) R := by
  intro s a s' hs hready h
  obtain ⟨s, m, hget, h⟩ := yields_bind.1 h
  obtain ⟨rfl, rfl⟩ := yields_get.1 hget
  exact hf s hready.marked s a s' hs hready h

end Part

end Coverage.Pass
