import Coverage.Proofs.Pass.Trail
import Coverage.Proofs.Sharing.Renaming

/-!
# A pass in two places

The same walk is taken twice over one tree, with different tables of marks that agree on the nodes of the tree and with
different fresh identities. `Lockstep` says of a step that it does the same in both places, up to the identities of
injected nodes: it gives the same result or is stopped by the same fault, and leaves the same part of the tree. It also
says what a step can do to the marks and the record, whether it is stopped or not.
-/

namespace Coverage.Pass

open Syntax

/-! ## States -/

/-- Where the second walk finds the nodes of the first. The identities of the tree stay as they are; those from `first`
on, which are fresh, are moved by `shift` as far as `limit`. -/
structure Relocation where
  own : List NodeId
  first : NodeId
  limit : NodeId
  shift : Nat
  rename : NodeId → NodeId
  old : ∀ i ∈ own, rename i = i
  fresh : ∀ j, first ≤ j → j < limit → rename j = j + shift

/-- What a step can do to marks: none is lost, and those that are added are on the given nodes or on fresh ones, all of
which are marked. The record only serves requests. -/
structure Moves (own : List NodeId) (s t : State) : Prop where
  next : s.next ≤ t.next
  kept : s.marks.Among t.marks
  added : ∀ i, t.marks.contains i = true → s.marks.contains i = true ∨ i ∈ own ∨ s.next ≤ i ∧ i < t.next
  marked : ∀ i, s.next ≤ i → i < t.next → t.marks.contains i = true
  trail : ∃ requests, Trail s requests t

namespace Moves

variable {own : List NodeId} {s t u : State}

/-- A step that only asks something of the record. -/
theorem of_trail {requests : List (Metadata.Request Kind)} (hmarks : t.marks = s.marks) (hnext : t.next = s.next)
    (htrail : Trail s requests t) : Moves own s t where
  next := Nat.le_of_eq hnext.symm
  kept i hi := by rwa [hmarks]
  added i hi := by
    rw [hmarks] at hi
    exact .inl hi
  marked i hle hlt := absurd (hnext ▸ hlt) (Nat.not_lt.2 hle)
  trail := ⟨requests, htrail⟩

theorem refl : Moves own s s := of_trail rfl rfl (.of_same rfl rfl)

theorem trans (h : Moves own s t) (h' : Moves own t u) : Moves own s u where
  next := Nat.le_trans h.next h'.next
  kept i hi := h'.kept i (h.kept i hi)
  added i hi := by
    rcases h'.added i hi with hi | hi | hi
    · rcases h.added i hi with hi | hi | hi
      · exact .inl hi
      · exact .inr (.inl hi)
      · exact .inr (.inr ⟨hi.1, Nat.lt_of_lt_of_le hi.2 h'.next⟩)
    · exact .inr (.inl hi)
    · exact .inr (.inr ⟨Nat.le_trans h.next hi.1, hi.2⟩)
  marked i hle hlt := by
    by_cases ht : i < t.next
    · exact h'.kept i (h.marked i hle ht)
    · exact h'.marked i (Nat.le_of_not_lt ht) hlt
  trail := by
    obtain ⟨requests, htrail⟩ := h.trail
    obtain ⟨requests', htrail'⟩ := h'.trail
    exact ⟨_, htrail.trans htrail'⟩

theorem mark {i : NodeId} (hi : i ∈ own) : Moves own s (Pass.mark i s).2 where
  next := Nat.le_refl _
  kept := Marks.among_mark s.marks i
  added j hj := by
    change (s.marks.mark i).contains j = true at hj
    rw [Marks.contains_mark, Bool.or_eq_true, beq_iff_eq] at hj
    rcases hj with hj | rfl
    · exact .inl hj
    · exact .inr (.inl hi)
  marked j hle hlt := absurd hlt (Nat.not_lt.2 hle)
  trail := ⟨[], .of_same rfl rfl⟩

theorem inject (size : Nat) (build : NodeId → Node) : Moves own s (Pass.inject size build s).2 where
  next := Nat.le_add_right ..
  kept := Marks.among_markRange s.marks s.next size
  added j hj := by
    change (s.marks.markRange s.next size).contains j = true at hj
    by_cases hlow : s.next ≤ j
    · by_cases hhigh : j < s.next + size
      · exact .inr (.inr ⟨hlow, hhigh⟩)
      · rw [Marks.contains_markRange_of_le _ _ _ _ (Nat.le_of_not_lt hhigh)] at hj
        exact .inl hj
    · rw [Marks.contains_markRange_of_lt _ _ _ _ (Nat.lt_of_not_le hlow)] at hj
      exact .inl hj
  marked j hle hlt := by
    obtain ⟨k, rfl⟩ := Nat.exists_eq_add_of_le hle
    exact Marks.contains_markRange _ _ _ _ (Nat.lt_of_add_lt_add_left hlt)
  trail := ⟨[], .of_same rfl rfl⟩

end Moves

variable (r : Relocation)

/-- The states of the two walks. Of the marks only those on the tree matter. -/
structure Shifted (s s' : State) : Prop where
  record : s'.record = s.record
  notes : s'.notes = s.notes
  next : s'.next = s.next + r.shift
  above : r.first ≤ s.next
  below : ∀ i ∈ r.own, i < s.next
  marks : ∀ i ∈ r.own, s'.marks.contains i = s.marks.contains i

namespace Shifted

variable {r} {s s' : State}

theorem withRecord (h : Shifted r s s') (record : Metadata Kind) : Shifted r { s with record } { s' with record } :=
  ⟨rfl, h.notes, h.next, h.above, h.below, h.marks⟩

theorem note (h : Shifted r s s') (n : Note) : Shifted r (Pass.note n s).2 (Pass.note n s').2 where
  record := h.record
  notes := congrArg (· ++ [n]) h.notes
  next := h.next
  above := h.above
  below := h.below
  marks := h.marks

theorem mark (h : Shifted r s s') (i : NodeId) : Shifted r (Pass.mark i s).2 (Pass.mark i s').2 where
  record := h.record
  notes := h.notes
  next := h.next
  above := h.above
  below := h.below
  marks j hj := by
    change (s'.marks.mark i).contains j = (s.marks.mark i).contains j
    rw [Marks.contains_mark, Marks.contains_mark, h.marks j hj]

theorem inject (h : Shifted r s s') (size : Nat) (build build' : NodeId → Node) :
    Shifted r (Pass.inject size build s).2 (Pass.inject size build' s').2 where
  record := h.record
  notes := h.notes
  next := (congrArg (· + size) h.next).trans (Nat.add_right_comm ..)
  above := Nat.le_trans h.above (Nat.le_add_right ..)
  below j hj := Nat.lt_add_right size (h.below j hj)
  marks j hj := by
    have hlt : j < s.next := h.below j hj
    have hlt' : j < s'.next := h.next ▸ Nat.lt_add_right r.shift hlt
    change (s'.marks.markRange s'.next size).contains j = (s.marks.markRange s.next size).contains j
    rw [Marks.contains_markRange_of_lt _ _ _ _ hlt', Marks.contains_markRange_of_lt _ _ _ _ hlt, h.marks j hj]

end Shifted

/-! ## Steps -/

variable {ε ε' α β : Type}

/-- The result of a step with the identities of the second walk. -/
def carried (f : α → α) (g : ε → ε) : Except ε α → Except ε α
  | .ok a => .ok (f a)
  | .error e => .error (g e)

/-- Whatever marks there are, the first step moves them as a step can. If it makes no more nodes than are moved, the
second step gives the same, up to identities. -/
structure Lockstep (f : α → α) (g : ε → ε) (x x' : ExceptT ε (StateM State) α) : Prop where
  moves : ∀ s, Moves r.own s (outcome x s).2
  follows : ∀ s s', Shifted r s s' → (outcome x s).2.next ≤ r.limit →
    (outcome x' s').1 = carried f g (outcome x s).1 ∧ Shifted r (outcome x s).2 (outcome x' s').2

namespace Lockstep

variable {r} {f : α → α} {g : ε → ε} {x x' : ExceptT ε (StateM State) α}

theorem pure {a a' : α} (h : a' = f a) :
    Lockstep r f g (pure a : ExceptT ε (StateM State) α) (pure a' : ExceptT ε (StateM State) α) where
  moves _ := .refl
  follows _ _ hs _ := ⟨congrArg Except.ok h, hs⟩

theorem throw {e e' : ε} (h : e' = g e) :
    Lockstep r f g (throw e : ExceptT ε (StateM State) α) (throw e' : ExceptT ε (StateM State) α) where
  moves _ := .refl
  follows _ _ hs _ := ⟨congrArg Except.error h, hs⟩

/-- Steps in a row. -/
theorem bind {f' : β → β} {k k' : α → ExceptT ε (StateM State) β} (hx : Lockstep r f g x x')
    (hk : ∀ a, Lockstep r f' g (k a) (k' (f a))) : Lockstep r f' g (x >>= k) (x' >>= k') where
  moves s := by
    have hmoves := hx.moves s
    rw [outcome_bind]
    rcases hresult : outcome x s with ⟨e | a, t⟩
    · rwa [hresult] at hmoves
    · rw [hresult] at hmoves
      exact hmoves.trans ((hk a).moves t)
  follows s s' hs hlimit := by
    have hfollows := hx.follows s s' hs
    rw [outcome_bind] at hlimit
    rw [outcome_bind, outcome_bind]
    generalize outcome x s = o at hfollows hlimit ⊢
    generalize outcome x' s' = o' at hfollows ⊢
    obtain ⟨e | a, t⟩ := o
    · obtain ⟨hsame, ht⟩ := hfollows hlimit
      obtain ⟨result', t'⟩ := o'
      cases hsame
      exact ⟨rfl, ht⟩
    · -- The second part only makes more nodes, so the first part makes few enough.
      obtain ⟨hsame, ht⟩ := hfollows (Nat.le_trans ((hk a).moves t).next hlimit)
      obtain ⟨result', t'⟩ := o'
      cases hsame
      exact (hk a).follows t t' ht hlimit

theorem lift {x x' : StateM State α} (hmoves : ∀ s, Moves r.own s (x s).2)
    (hfollows : ∀ s s', Shifted r s s' → (x s).2.next ≤ r.limit →
      (x' s').1 = f (x s).1 ∧ Shifted r (x s).2 (x' s').2) :
    Lockstep r f g (liftM x : ExceptT ε (StateM State) α) (liftM x' : ExceptT ε (StateM State) α) where
  moves s := hmoves s
  follows s s' hs hlimit := by
    obtain ⟨hsame, hs⟩ := hfollows s s' hs hlimit
    exact ⟨congrArg Except.ok hsame, hs⟩

/-- The parts of a tree are put back into the whole in the same way. -/
theorem within {x x' : Visit ε α} {q : ε → ε} {q' : ε' → ε'} {put put' : ε → ε'}
    (hx : Lockstep r f (Prod.map id q) x x') (hput : ∀ e, put' (q e) = q' (put e)) :
    Lockstep r f (Prod.map id q') (within put x) (within put' x') := by
  have hwithin (put : ε → ε') (x : Visit ε α) (s : State) :
      outcome (Pass.within put x) s =
        ((outcome x s).1.mapError fun e ↦ (e.1, put e.2), (outcome x s).2) := rfl
  constructor
  · exact fun s ↦ hx.moves s
  · intro s s' hs hlimit
    obtain ⟨hsame, ht⟩ := hx.follows s s' hs hlimit
    refine ⟨?_, ht⟩
    rw [hwithin, hwithin, hsame]
    rcases (outcome x s).1 with ⟨fault, e⟩ | a
    · exact congrArg (fun left ↦ Except.error (fault, left)) (hput e)
    · rfl

theorem leaving {x x' : Pass.Step α} {q : ε → ε} {left left' : ε} (hx : Lockstep r f id x x') (hleft : left' = q left) :
    Lockstep r f (Prod.map id q) (leaving left x) (leaving left' x') := by
  have hleaving (left : ε) (x : Pass.Step α) (s : State) :
      outcome (Pass.leaving left x) s = ((outcome x s).1.mapError fun e ↦ (e, left), (outcome x s).2) := rfl
  constructor
  · exact fun s ↦ hx.moves s
  · intro s s' hs hlimit
    obtain ⟨hsame, ht⟩ := hx.follows s s' hs hlimit
    refine ⟨?_, ht⟩
    rw [hleaving, hleaving, hsame]
    rcases (outcome x s).1 with fault | a
    · exact congrArg (fun left ↦ Except.error (fault, left)) hleft
    · rfl

theorem get {k k' : State → ExceptT ε (StateM State) α} (hmoves : ∀ s, Moves r.own s (outcome (k s) s).2)
    (hk : ∀ s s', Shifted r s s' → (outcome (k s) s).2.next ≤ r.limit →
      (outcome (k' s') s').1 = carried f g (outcome (k s) s).1 ∧ Shifted r (outcome (k s) s).2 (outcome (k' s') s').2) :
    Lockstep r f g (get >>= k) (get >>= k') := ⟨hmoves, hk⟩

end Lockstep

/-! ## What a walk asks and registers -/

variable {r} {plan : Plan} {f : α → α} {g : ε → ε}

/-- Both walks see the same marks on the tree. -/
theorem lockstep_isMarked {n : Node} (hn : n.ids ⊆ r.own) {k k' : Bool → ExceptT ε (StateM State) α}
    (hk : ∀ held, Lockstep r f g (k held) (k' held)) :
    Lockstep r f g (liftM (isMarked n) >>= k) (liftM (isMarked n) >>= k') := by
  refine Lockstep.bind (f := id) (.lift (fun _ ↦ .refl) fun s s' hs _ ↦ ⟨?_, hs⟩) hk
  change s'.marks.holds n = s.marks.holds n
  cases n with
  | gap => rfl
  | mk i c p fs =>
    rw [Node.ids, List.cons_subset] at hn
    exact hs.marks i hn.1

theorem lockstep_mark {i : NodeId} (hi : i ∈ r.own) :
    Lockstep r id g (liftM (mark i) : ExceptT ε (StateM State) Unit) (liftM (mark i)) :=
  .lift (fun _ ↦ .mark hi) fun _ _ hs _ ↦ ⟨rfl, hs.mark i⟩

theorem lockstep_markNode {n : Node} (hn : n.ids ⊆ r.own) :
    Lockstep r id g (liftM (markNode n) : ExceptT ε (StateM State) Unit) (liftM (markNode n)) := by
  cases n with
  | gap => exact .pure rfl
  | mk i c p fs =>
    rw [Node.ids, List.cons_subset] at hn
    exact lockstep_mark hn.1

theorem lockstep_noteExcluded (n : Node) : Lockstep r id id (noteExcluded n) (noteExcluded n) := by
  cases n with
  | gap => exact .pure rfl
  | mk i c p fs =>
    cases hline : p.line with
    | none =>
      simp only [noteExcluded, hline]
      exact .throw rfl
    | some line =>
      simp only [noteExcluded, hline]
      refine .lift (fun s ↦ .of_trail rfl rfl (.of_same rfl ?_)) fun _ _ hs _ ↦ ⟨rfl, hs.note _⟩
      change refusals (s.notes ++ [.excluded c line]) = _
      simp [refusals]

theorem lockstep_located (a : Except Unlocated α) : Lockstep r id id (located a) (located a) := by
  cases a with
  | error cause => exact .throw rfl
  | ok a => exact .pure rfl

theorem lockstep_firstIsDocstring (body : List Node) :
    Lockstep r id id (firstIsDocstring body) (firstIsDocstring body) := by
  cases body with
  | nil => exact .throw rfl
  | cons s body => exact .pure rfl

theorem lockstep_lastIsDefault (cases : List Node) : Lockstep r id id (lastIsDefault cases) (lastIsDefault cases) := by
  unfold lastIsDefault
  split
  next => exact .throw rfl
  next => exact .pure rfl

theorem moves_register {own : List NodeId} {e : Entry Kind} (hkey : e.key = keyOf e.kind e.span) (s : State) :
    Moves own s (register e s).2 := by
  have htrail := Trail.register hkey s
  rw [register_eq] at htrail ⊢
  split at htrail
  next hadded =>
    rw [if_pos hadded]
    exact .of_trail rfl rfl htrail
  next hrefused =>
    rw [if_neg hrefused]
    exact .of_trail rfl rfl htrail

theorem Shifted.register {s s' : State} (h : Shifted r s s') (e : Entry Kind) :
    (Pass.register e s').1 = (Pass.register e s).1 ∧ Shifted r (Pass.register e s).2 (Pass.register e s').2 := by
  rw [register_eq, register_eq, h.record]
  split
  next => exact ⟨rfl, h.withRecord _⟩
  next => exact ⟨rfl, (h.withRecord _).note (.refused e.key)⟩

theorem registerArms_cons (group : Int) (a : Nat) (span : Span) (spans : List Span) (s : State) :
    registerArms group a (span :: spans) s =
      ((register (armEntry group a span) s).1 ::
          (registerArms group (a + 1) spans (register (armEntry group a span) s).2).1,
        (registerArms group (a + 1) spans (register (armEntry group a span) s).2).2) := rfl

theorem moves_registerArms {own : List NodeId} (group : Int) (a : Nat) (spans : List Span) (s : State) :
    Moves own s (registerArms group a spans s).2 := by
  induction spans generalizing a s with
  | nil => exact .refl
  | cons span spans ih =>
    rw [registerArms_cons]
    exact (moves_register rfl s).trans (ih _ _)

theorem Shifted.registerArms {s s' : State} (h : Shifted r s s') (group : Int) (a : Nat) (spans : List Span) :
    (Pass.registerArms group a spans s').1 = (Pass.registerArms group a spans s).1 ∧
      Shifted r (Pass.registerArms group a spans s).2 (Pass.registerArms group a spans s').2 := by
  induction spans generalizing a s s' with
  | nil => exact ⟨rfl, h⟩
  | cons span spans ih =>
    obtain ⟨hkey, hs⟩ := h.register (armEntry group a span)
    obtain ⟨hkeys, hs⟩ := ih hs (a + 1)
    rw [registerArms_cons, registerArms_cons, hkey, hkeys]
    exact ⟨rfl, hs⟩

theorem lockstep_registerUnit (kind : Kind) (n : Node) (name : Option String) :
    Lockstep r id id (registerUnit plan kind n name) (registerUnit plan kind n name) := by
  unfold registerUnit
  split
  next =>
    refine (lockstep_located _).bind fun span ↦ ?_
    exact .lift (moves_register rfl) fun _ _ hs _ ↦ hs.register _
  next => exact .pure rfl

/-- Both walks register a group in the same way. -/
theorem lockstep_registerGroup (construct : Construct) (n : Node) (arms : List Span) :
    Lockstep r id id (registerGroup plan construct n arms) (registerGroup plan construct n arms) := by
  unfold registerGroup
  split
  next =>
    refine (lockstep_located _).bind fun span ↦ ?_
    refine .get (fun s ↦ ?_) fun s s' hs _ ↦ ?_
    · cases hgroup : s.record.addGroup construct arms.length span with
      | none => exact .refl
      | some added =>
        have hadd : Moves r.own s { s with record := added.2 } := .of_trail rfl rfl (.addGroup hgroup)
        exact hadd.trans (moves_registerArms added.1.id 0 arms _)
    · rw [hs.record, id_eq]
      cases s.record.addGroup construct arms.length span with
      | none => exact ⟨rfl, hs⟩
      | some added =>
        obtain ⟨hkeys, hs⟩ := (hs.withRecord added.2).registerArms added.1.id 0 arms
        exact ⟨congrArg Except.ok hkeys, hs⟩
  next => exact .pure rfl

/-- The arms of a node are located and registered as one group. -/
theorem lockstep_fork (construct : Construct) (n : Node) (arms : Except Unlocated (List Span)) :
    Lockstep r id id (do registerGroup plan construct n (← located arms))
      (do registerGroup plan construct n (← located arms)) :=
  (lockstep_located arms).bind fun spans ↦ lockstep_registerGroup construct n spans

/-! ## What a walk injects -/

/-- Fresh nodes that are built in the same way and put to the same use. -/
theorem lockstep_inject {size : Nat} {build build' : NodeId → Node} (use use' : Node → α)
    (hbuild : ∀ {j j'}, Probe.Carries r.rename size j j' → (build j).rename r.rename = build' j')
    (huse : ∀ n, use' (n.rename r.rename) = f (use n)) :
    Lockstep r f g (liftM (do return use (← inject size build)) : ExceptT ε (StateM State) α)
      (liftM (do return use' (← inject size build'))) := by
  refine .lift (fun _ ↦ .inject size build) fun s s' hs hlimit ↦ ⟨?_, hs.inject size build build'⟩
  have hcarries : Probe.Carries r.rename size s.next s'.next := by
    intro k hk
    change s.next + size ≤ r.limit at hlimit
    rw [hs.next, r.fresh (s.next + k) (Nat.le_trans hs.above (Nat.le_add_right ..))
      (Nat.lt_of_lt_of_le (Nat.add_lt_add_left hk s.next) hlimit), Nat.add_right_comm]
  change use' (build' s'.next) = f (use (build s.next))
  rw [← hbuild hcarries, huse]

/-- A counter is the same code in both places. -/
theorem lockstep_counter (key : Key) (place : Place) {use use' : Node → α}
    (huse : ∀ n, use' (n.rename r.rename) = f (use n)) :
    Lockstep r f g (liftM (do return use (← counter plan key place)) : ExceptT ε (StateM State) α)
      (liftM (do return use' (← counter plan key place))) :=
  lockstep_inject use use' (Probe.rename_counter key place) huse

theorem lockstep_countBefore (key : Option Key) (place : Place) :
    Lockstep r (Option.map (Node.rename r.rename)) g
      (liftM (countBefore plan key place) : ExceptT ε (StateM State) (Option Node))
      (liftM (countBefore plan key place)) := by
  cases key with
  | none => exact .pure rfl
  | some key => exact lockstep_counter key place fun _ ↦ rfl

theorem lockstep_wrap (key : Option Key) (e : Node) :
    Lockstep r (Node.rename r.rename) g (liftM (wrap plan key e) : ExceptT ε (StateM State) Node)
      (liftM (wrap plan key (e.rename r.rename))) := by
  cases key with
  | none => exact .pure rfl
  | some key => exact lockstep_inject id id (Probe.rename_wrapper key e) fun _ ↦ rfl

theorem lockstep_prepend (key : Option Key) (block : List Node) :
    Lockstep r (renameNodes r.rename) g (liftM (prepend plan key block) : ExceptT ε (StateM State) (List Node))
      (liftM (prepend plan key (renameNodes r.rename block))) := by
  cases block with
  | nil =>
    rw [renameNodes_nil, prepend_nil]
    exact .pure renameNodes_nil.symm
  | cons n block =>
    cases key with
    | none => exact .pure rfl
    | some key =>
      rw [renameNodes_cons]
      simp only [prepend, place_rename]
      exact lockstep_counter key n.place fun _ ↦ by simp

theorem lockstep_countEntry (key : Option Key) (doc : Bool) (block : List Node) :
    Lockstep r (renameNodes r.rename) g (liftM (countEntry plan key doc block) : ExceptT ε (StateM State) (List Node))
      (liftM (countEntry plan key doc (renameNodes r.rename block))) := by
  obtain _ | key := key
  · exact .pure rfl
  obtain _ | ⟨first, _ | ⟨second, rest⟩⟩ := block <;> cases doc <;>
    simp only [renameNodes_nil, renameNodes_cons, countEntry, place_rename]
  · exact .pure renameNodes_nil.symm
  · exact .pure renameNodes_nil.symm
  all_goals exact lockstep_counter key _ fun _ ↦ by simp

/-- Both walks guard a block in the same way. -/
theorem lockstep_guardBody (keys : List (Option Key)) (body : List Node) :
    Lockstep r (renameNodes r.rename) g (liftM (guardBody plan keys body) : ExceptT ε (StateM State) (List Node))
      (liftM (guardBody plan keys (renameNodes r.rename body))) := by
  unfold guardBody
  split
  next ok error first rest =>
    rw [renameNodes_cons]
    simp only [place_rename]
    refine lockstep_inject _ _ (fun hcarries ↦ ?_) fun _ ↦ by simp
    rw [Probe.rename_guard ok error first.place _ hcarries, renameNodes_cons]
  next hbody =>
    split
    next ok error first' rest' heq =>
      -- A block that is renamed to a block with a first statement has one itself.
      cases body with
      | nil => simp at heq
      | cons first rest => exact absurd rfl (hbody ok error first rest rfl)
    next => exact .pure rfl

theorem lockstep_addFallback (key : Option Key) (subject : Node) (cases : List Node) :
    Lockstep r (renameNodes r.rename) g
      (liftM (addFallback plan key subject cases) : ExceptT ε (StateM State) (List Node))
      (liftM (addFallback plan key (subject.rename r.rename) (renameNodes r.rename cases))) := by
  cases key with
  | none => exact .pure rfl
  | some key =>
    simp only [addFallback, place_rename]
    exact lockstep_inject _ _ (Probe.rename_fallback key subject.place) fun _ ↦ by simp

/-! ## Slots -/

def Slot.rename (ρ : NodeId → NodeId) (slot : Slot) : Slot := ⟨slot.counter.map (Node.rename ρ), slot.stmt.rename ρ⟩

@[simp]
theorem finished_rename (ρ : NodeId → NodeId) (slots : List Slot) :
    finished (slots.map (Slot.rename ρ)) = renameNodes ρ (finished slots) := by
  induction slots with
  | nil => exact renameNodes_nil.symm
  | cons slot slots ih =>
    obtain ⟨_ | c, n⟩ := slot <;> simp [finished_cons, Slot.rename, ih]

@[simp]
theorem bare_rename (ρ : NodeId → NodeId) (slots : List Slot) :
    bare (slots.map (Slot.rename ρ)) = renameNodes ρ (bare slots) := by
  induction slots with
  | nil => exact renameNodes_nil.symm
  | cons slot slots ih =>
    simp only [bare, List.map_cons, renameNodes_cons] at ih ⊢
    rw [ih]
    rfl

theorem lockstep_elseClause (key : Option Key) (header : Place) (slots : List Slot) :
    Lockstep r (renameNodes r.rename) g
      (liftM (elseClause plan key header slots) : ExceptT ε (StateM State) (List Node))
      (liftM (elseClause plan key header (slots.map (Slot.rename r.rename)))) := by
  cases slots with
  | nil =>
    cases key with
    | none => exact .pure renameNodes_nil.symm
    | some key => exact lockstep_counter key header fun _ ↦ by simp
  | cons slot slots =>
    have hprepend (slot : Slot) (slots : List Slot) :
        elseClause plan key header (slot :: slots) = prepend plan key (finished (slot :: slots)) := by
      cases key <;> rfl
    rw [List.map_cons, hprepend, hprepend, ← List.map_cons, finished_rename]
    exact lockstep_prepend key _

end Coverage.Pass
