import Coverage.Proofs.Projection.Twin

/-!
# What two passes put into a tree

The trees that the two passes give are alike if, filled in and seen through the kept kinds, they are equal. The
code that a pass injects takes the numbers that it lacks from the code around it, and where the second pass
injects nothing the code around is another. So nodes of the tree, which carry all their numbers, have to be
alike below any two places, and injected code only below one place.
-/

namespace Coverage.Pass

open Syntax

variable {first : NodeId} {kept : Kind → Bool} {plan : Plan} {ε ε' : Type}
variable {ns ns' b b' : List Node} {n m m' : Node}

/-! ## Lists of nodes -/

/-- The nodes look the same below any two places. -/
def AlikeNodes (first : NodeId) (kept : Kind → Bool) (ns ns' : List Node) : Prop :=
  ∀ o o' : Place, o.span?.isSome = true → o'.span?.isSome = true →
    viewNodes first kept (fillNodes o ns) = viewNodes first everyKind (fillNodes o' ns')

/-- The nodes look the same below one place. -/
def LevelNodes (first : NodeId) (kept : Kind → Bool) (ns ns' : List Node) : Prop :=
  ∀ o : Place, o.span?.isSome = true →
    viewNodes first kept (fillNodes o ns) = viewNodes first everyKind (fillNodes o ns')

theorem AlikeNodes.level (h : AlikeNodes first kept ns ns') : LevelNodes first kept ns ns' :=
  fun o ho ↦ h o o ho ho

theorem AlikeNodes.append {ms ms' : List Node} (h : AlikeNodes first kept ns ns')
    (h' : AlikeNodes first kept ms ms') : AlikeNodes first kept (ns ++ ms) (ns' ++ ms') := by
  intro o o' ho ho'
  rw [fillNodes_append, fillNodes_append, viewNodes_append, viewNodes_append, h o o' ho ho', h' o o' ho ho']

theorem LevelNodes.append {ms ms' : List Node} (h : LevelNodes first kept ns ns')
    (h' : LevelNodes first kept ms ms') : LevelNodes first kept (ns ++ ms) (ns' ++ ms') := by
  intro o ho
  rw [fillNodes_append, fillNodes_append, viewNodes_append, viewNodes_append, h o ho, h' o ho]

theorem alikeNodes_nil : AlikeNodes first kept [] [] := fun _ _ _ _ ↦ by simp

/-- Nodes that a pass passes by. -/
theorem alikeNodes_self (old : Before first (nodesIds ns)) (hplaced : nodesPlaced ns = true) :
    AlikeNodes first kept ns ns := by
  intro o o' ho ho'
  rw [fillNodes_eq_self o ns hplaced, fillNodes_eq_self o' ns hplaced, viewNodes_eq_self ns old,
    viewNodes_eq_self ns old]

/-! ## Nodes -/

/-- A walk leaves the identity, the class and the place of a node as they are; below it the nodes that the two
passes give look the same. -/
inductive Alike (first : NodeId) (kept : Kind → Bool) : Node → Node → Node → Prop
  | gap : Alike first kept .gap .gap .gap
  | mk {i : NodeId} {c : NodeClass} {p : Place} {fs gs gs' : List Field} (old : i < first)
      (hp : c.role.placeable = true → p.span?.isSome = true)
      (hfields : ∀ o o' : Place, o.span?.isSome = true → o'.span?.isSome = true →
        viewFields first kept (fillFields (c.innerPlace p o) gs) =
          viewFields first everyKind (fillFields (c.innerPlace p o') gs')) :
      Alike first kept (.mk i c p fs) (.mk i c p gs) (.mk i c p gs')

theorem ownPlace_eq_self {c : NodeClass} {p : Place} (hp : c.role.placeable = true → p.span?.isSome = true)
    (o : Place) : c.ownPlace p o = p := by
  unfold NodeClass.ownPlace
  split
  next hc => exact Place.fill_eq_self o (hp hc)
  next => rfl

theorem span?_innerPlace (c : NodeClass) (p : Place) {o : Place} (ho : o.span?.isSome = true) :
    (c.innerPlace p o).span?.isSome = true := by
  unfold NodeClass.innerPlace
  split
  next => exact Place.span?_fill p ho
  next => exact ho

namespace Alike

variable {n m m' : Node}

theorem place (h : Alike first kept n m m') : m.place = n.place := by
  cases h with
  | gap => rfl
  | mk => rfl

theorem place' (h : Alike first kept n m m') : m'.place = n.place := by
  cases h with
  | gap => rfl
  | mk => rfl

/-- Nodes that are alike look the same after places are filled in. -/
theorem view (h : Alike first kept n m m') {o o' : Place} (ho : o.span?.isSome = true)
    (ho' : o'.span?.isSome = true) :
    (m.fillPlaces o).view first kept = (m'.fillPlaces o').view first everyKind := by
  cases h with
  | gap => simp [Node.view]
  | mk old hp hfields =>
    rw [Node.fillPlaces_mk, Node.fillPlaces_mk, Node.view_old old, Node.view_old old, hfields o o' ho ho',
      ownPlace_eq_self hp, ownPlace_eq_self hp]

/-- A node of the tree is seen in any list. -/
theorem views (h : Alike first kept n m m') (o : Place) (k : Kind → Bool) :
    (m.fillPlaces o).views first k = [(m.fillPlaces o).view first k] := by
  cases h with
  | gap => simp [Node.view, Node.views]
  | mk old => simp [Node.view_old old, Node.views_old old]

theorem views' (h : Alike first kept n m m') (o : Place) (k : Kind → Bool) :
    (m'.fillPlaces o).views first k = [(m'.fillPlaces o).view first k] := by
  cases h with
  | gap => simp [Node.view, Node.views]
  | mk old => simp [Node.view_old old, Node.views_old old]

theorem nodes (h : Alike first kept n m m') : AlikeNodes first kept [m] [m'] := by
  intro o o' ho ho'
  simp [h.views o kept, h.views' o' everyKind, h.view ho ho']

end Alike

/-- The nodes look the same below one place, by themselves and in a list. -/
def LevelNode (first : NodeId) (kept : Kind → Bool) (m m' : Node) : Prop :=
  ∀ o : Place, o.span?.isSome = true →
    (m.fillPlaces o).view first kept = (m'.fillPlaces o).view first everyKind ∧
      (m.fillPlaces o).views first kept = (m'.fillPlaces o).views first everyKind

theorem Alike.level (h : Alike first kept n m m') : LevelNode first kept m m' := by
  intro o ho
  rw [h.views, h.views', h.view ho ho]
  exact ⟨rfl, rfl⟩

theorem LevelNode.nodes (h : LevelNode first kept m m') : LevelNodes first kept [m] [m'] := by
  intro o ho
  simp [(h o ho).2]

/-! ## Fields -/

/-- The fields look the same below any two places. -/
def AlikeField (first : NodeId) (kept : Kind → Bool) (f f' : Field) : Prop :=
  ∀ o o' : Place, o.span?.isSome = true → o'.span?.isSome = true →
    (f.fillPlaces o).view first kept = (f'.fillPlaces o').view first everyKind

/-- The fields look the same below one place. -/
def LevelField (first : NodeId) (kept : Kind → Bool) (f f' : Field) : Prop :=
  ∀ o : Place, o.span?.isSome = true → (f.fillPlaces o).view first kept = (f'.fillPlaces o).view first everyKind

theorem AlikeField.level {f f' : Field} (h : AlikeField first kept f f') : LevelField first kept f f' :=
  fun o ho ↦ h o o ho ho

theorem Alike.field (h : Alike first kept n m m') : AlikeField first kept (.child m) (.child m') := by
  intro o o' ho ho'
  simp [h.view ho ho']

theorem LevelNode.field (h : LevelNode first kept m m') : LevelField first kept (.child m) (.child m') := by
  intro o ho
  simp [(h o ho).1]

theorem AlikeNodes.field (h : AlikeNodes first kept ns ns') : AlikeField first kept (.many ns) (.many ns') := by
  intro o o' ho ho'
  simp [h o o' ho ho']

theorem LevelNodes.field (h : LevelNodes first kept ns ns') : LevelField first kept (.many ns) (.many ns') := by
  intro o ho
  simp [h o ho]

/-- A field that a pass passes by. -/
theorem alikeField_self {f : Field} (old : Before first f.ids) (hplaced : f.placed = true) :
    AlikeField first kept f f := by
  have hfill (o : Place) : f.fillPlaces o = f := by
    have h := fillFields_eq_self o [f] (by simpa [fieldsPlaced] using hplaced)
    simpa using h
  intro o o' _ _
  rw [hfill, hfill, Field.view_eq_self f old, Field.view_eq_self f old]

theorem viewFields_of_level {fs fs' : List Field} (h : List.Forall₂ (LevelField first kept) fs fs') {o : Place}
    (ho : o.span?.isSome = true) :
    viewFields first kept (fillFields o fs) = viewFields first everyKind (fillFields o fs') := by
  induction h with
  | nil => simp
  | cons hf _ ih => simp [hf o ho, ih]

theorem viewFields_of_alike {fs fs' : List Field} (h : List.Forall₂ (AlikeField first kept) fs fs') {o o' : Place}
    (ho : o.span?.isSome = true) (ho' : o'.span?.isSome = true) :
    viewFields first kept (fillFields o fs) = viewFields first everyKind (fillFields o' fs') := by
  induction h with
  | nil => simp
  | cons hf _ ih => simp [hf o o' ho ho', ih]

section

variable {i : NodeId} {c : NodeClass} {p : Place} {fs gs gs' : List Field}

/-- A node that carries all its numbers hides the place around it from the nodes below. -/
theorem Alike.of_level (old : i < first) (hc : c.role.placeable = true) (hp : p.span?.isSome = true)
    (h : List.Forall₂ (LevelField first kept) gs gs') :
    Alike first kept (.mk i c p fs) (.mk i c p gs) (.mk i c p gs') := by
  have hinner (o : Place) : c.innerPlace p o = p := by
    rw [NodeClass.innerPlace, if_pos hc, Place.fill_eq_self o hp]
  refine .mk old (fun _ ↦ hp) fun o o' _ _ ↦ ?_
  rw [hinner, hinner]
  exact viewFields_of_level h hp

theorem Alike.of_fields (old : i < first) (hp : c.role.placeable = true → p.span?.isSome = true)
    (h : List.Forall₂ (AlikeField first kept) gs gs') :
    Alike first kept (.mk i c p fs) (.mk i c p gs) (.mk i c p gs') :=
  .mk old hp fun _ _ ho ho' ↦ viewFields_of_alike h (span?_innerPlace c p ho) (span?_innerPlace c p ho')

theorem alikeFields_self : ∀ {fs : List Field}, Before first (fieldsIds fs) → fieldsPlaced fs = true →
    List.Forall₂ (AlikeField first kept) fs fs
  | [], _, _ => .nil
  | f :: fs, old, hplaced => by
    rw [fieldsIds_cons, before_append] at old
    rw [fieldsPlaced_cons] at hplaced
    exact .cons (alikeField_self old.1 hplaced.1) (alikeFields_self old.2 hplaced.2)

/-- A node that a pass passes by. -/
theorem alike_self (old : Before first n.ids) (hplaced : n.placed = true) : Alike first kept n n n := by
  cases n with
  | gap => exact .gap
  | mk i c p fs =>
    rw [Node.ids, before_cons] at old
    obtain ⟨hp, hfs⟩ := placed_mk.1 hplaced
    exact .of_fields old.1 hp (alikeFields_self old.2 hfs)

end

/-! ## Injection -/

section Injection

variable {kind : Kind} {k k' : Option Key} {s s' : State}

/-- A counter looks the same below places from which it takes the same numbers. -/
theorem Linked.countBefore (h : Linked first kept s s') (plan : Plan) (hk : Projected kept kind k k') (place : Place) :
    Linked first kept (Pass.countBefore plan k place s).2
        (Pass.countBefore { plan with counts := kept } k' place s').2 ∧
      ∀ o o', place.fill o = place.fill o' →
        viewNodes first kept (fillNodes o (Pass.countBefore plan k place s).1.toList) =
          viewNodes first everyKind
            (fillNodes o' (Pass.countBefore { plan with counts := kept } k' place s').1.toList) := by
  cases hk with
  | refused => exact ⟨h, fun _ _ _ ↦ rfl⟩
  | counted key hkey hkind =>
    let build := Probe.counter plan key place
    refine ⟨(h.inject Probe.counterSize build).inject' Probe.counterSize build, fun o o' hplace ↦ ?_⟩
    have hviews : (Probe.counter plan key (place.fill o) s.next).views first kept =
        (Probe.counter plan key (place.fill o) s'.next).views first everyKind :=
      Probe.views_counter_kept h.next h.next' hkey hkind rfl
    change viewNodes first kept (fillNodes o [Probe.counter plan key place s.next]) =
      viewNodes first everyKind (fillNodes o' [Probe.counter plan key place s'.next])
    simp [Probe.fillPlaces_counter, hviews, ← hplace]
  | dropped key hkey hkind =>
    refine ⟨h.inject Probe.counterSize (Probe.counter plan key place), fun o o' _ ↦ ?_⟩
    have hviews : (Probe.counter plan key (place.fill o) s.next).views first kept = [] :=
      Probe.views_counter_dropped h.next hkey hkind
    change viewNodes first kept (fillNodes o [Probe.counter plan key place s.next]) =
      viewNodes first everyKind (fillNodes o' [])
    simp [Probe.fillPlaces_counter, hviews]

/-- Wrapping, whether or not one pass leaves it out. -/
theorem Linked.wrap (h : Linked first kept s s') (hk : Projected kept kind k k') {e e' : Node}
    (he : Alike first kept n e e') :
    Linked first kept (Pass.wrap plan k e s).2 (Pass.wrap { plan with counts := kept } k' e' s').2 ∧
      LevelNode first kept (Pass.wrap plan k e s).1 (Pass.wrap { plan with counts := kept } k' e' s').1 := by
  cases hk with
  | refused => exact ⟨h, he.level⟩
  | counted key hkey hkind =>
    refine ⟨(h.inject Probe.wrapperSize (Probe.wrapper plan key e)).inject' Probe.wrapperSize
      (Probe.wrapper plan key e'), fun o ho ↦ ?_⟩
    change ((Probe.wrapper plan key e s.next).fillPlaces o).view first kept =
        ((Probe.wrapper plan key e' s'.next).fillPlaces o).view first everyKind ∧
      ((Probe.wrapper plan key e s.next).fillPlaces o).views first kept =
        ((Probe.wrapper plan key e' s'.next).fillPlaces o).views first everyKind
    have hinner := Place.span?_fill e.place ho
    have hviews : (e.fillPlaces (e.place.fill o)).views first kept =
        (e'.fillPlaces (e.place.fill o)).views first everyKind := by
      rw [he.views, he.views', he.view hinner hinner]
    rw [Probe.views_wrapper, Probe.views_wrapper,
      Probe.view_wrapper_kept h.next h.next' hkey hkind rfl (he.place.trans he.place'.symm) hviews]
    exact ⟨rfl, rfl⟩
  | dropped key hkey hkind =>
    refine ⟨h.inject Probe.wrapperSize (Probe.wrapper plan key e), fun o ho ↦ ?_⟩
    change ((Probe.wrapper plan key e s.next).fillPlaces o).view first kept =
        (e'.fillPlaces o).view first everyKind ∧
      ((Probe.wrapper plan key e s.next).fillPlaces o).views first kept =
        (e'.fillPlaces o).views first everyKind
    rw [Probe.views_wrapper, Probe.view_wrapper_dropped h.next hkey hkind, he.views',
      he.view (Place.span?_fill e.place ho) ho]
    exact ⟨rfl, rfl⟩

theorem twin_wrap (hk : Projected kept kind k k') {e e' : Node} (he : Alike first kept n e e') :
    Twin first kept (liftM (wrap plan k e) : ExceptT ε (StateM State) Node)
      (liftM (wrap { plan with counts := kept } k' e') : ExceptT ε' (StateM State) Node) (LevelNode first kept) :=
  .lift fun _ _ hs ↦ hs.wrap hk he

/-- Counters before a statement that carries all its numbers. -/
theorem twin_countBefore (hk : Projected kept kind k k') {place : Place} (hplace : place.span?.isSome = true) :
    Twin first kept (liftM (countBefore plan k place) : ExceptT ε (StateM State) (Option Node))
      (liftM (countBefore { plan with counts := kept } k' place) : ExceptT ε' (StateM State) (Option Node))
      fun c c' ↦ AlikeNodes first kept c.toList c'.toList ∧ (∀ n ∈ c, n.place = place) ∧ ∀ n ∈ c', n.place = place := by
  have hcounter (plan : Plan) (k : Option Key) (s : State) : ∀ n ∈ (countBefore plan k place s).1, n.place = place := by
    intro n hn
    cases k with
    | none => cases hn
    | some key =>
      obtain rfl := Option.mem_some.1 hn
      rfl
  refine .lift fun s s' hs ↦ ?_
  obtain ⟨hlinked, hviews⟩ := hs.countBefore plan hk place
  refine ⟨hlinked, fun o o' _ _ ↦ hviews o o' ?_, hcounter plan k s, hcounter _ k' s'⟩
  rw [Place.fill_eq_self o hplace, Place.fill_eq_self o' hplace]

/-! ## Blocks -/

/-- The blocks look the same, and start at the same place. -/
structure AlikeBlock (first : NodeId) (kept : Kind → Bool) (b b' : List Node) : Prop where
  nodes : AlikeNodes first kept b b'
  heads : b.head?.map Node.place = b'.head?.map Node.place

/-- The counter of an arm and what it stands before. -/
theorem Linked.countAt (h : Linked first kept s s') (plan : Plan) (hk : Projected kept kind k k') (place : Place)
    (hb : LevelNodes first kept b b') :
    Linked first kept (Pass.countBefore plan k place s).2
        (Pass.countBefore { plan with counts := kept } k' place s').2 ∧
      LevelNodes first kept ((Pass.countBefore plan k place s).1.toList ++ b)
        ((Pass.countBefore { plan with counts := kept } k' place s').1.toList ++ b') := by
  obtain ⟨hlinked, hviews⟩ := h.countBefore plan hk place
  have hlevel : LevelNodes first kept (Pass.countBefore plan k place s).1.toList
      (Pass.countBefore { plan with counts := kept } k' place s').1.toList := fun o _ ↦ hviews o o rfl
  exact ⟨hlinked, hlevel.append hb⟩

theorem prepend_cons (plan : Plan) (k : Option Key) (n : Node) (b : List Node) (s : State) : prepend plan k (n :: b) s =
    ((countBefore plan k n.place s).1.toList ++ n :: b, (countBefore plan k n.place s).2) := by
  cases k <;> rfl

/-- Both passes count a block or one leaves it out. -/
theorem twin_prepend (hk : Projected kept kind k k') (hb : AlikeBlock first kept b b') :
    Twin first kept (liftM (prepend plan k b) : ExceptT ε (StateM State) (List Node))
      (liftM (prepend { plan with counts := kept } k' b') : ExceptT ε' (StateM State) (List Node))
      (LevelNodes first kept) := by
  have hheads := hb.heads
  refine .lift fun s s' hs ↦ ?_
  cases b with
  | nil =>
    obtain rfl : b' = [] := by simpa using hheads.symm
    rw [prepend_nil, prepend_nil]
    exact ⟨hs, alikeNodes_nil.level⟩
  | cons n b =>
    cases b' with
    | nil => simp at hheads
    | cons n' b' =>
      have hplace : n.place = n'.place := by simpa using hheads
      rw [prepend_cons, prepend_cons, ← hplace]
      exact hs.countAt plan hk n.place hb.nodes.level

/-- The entry counter stands behind the docstring, which no pass changes. -/
theorem twin_countEntry (hk : Projected kept kind k k') {doc : Bool} (hb : AlikeBlock first kept b b')
    (hdoc : doc = true → ∃ d r r', b = d :: r ∧ b' = d :: r' ∧ AlikeNodes first kept [d] [d] ∧
      AlikeBlock first kept r r') :
    Twin first kept (liftM (countEntry plan k doc b) : ExceptT ε (StateM State) (List Node))
      (liftM (countEntry { plan with counts := kept } k' doc b') : ExceptT ε' (StateM State) (List Node))
      (LevelNodes first kept) := by
  cases doc with
  | false =>
    have hcount (plan : Plan) (k : Option Key) (b : List Node) : countEntry plan k false b = prepend plan k b := by
      obtain _ | ⟨n, _ | ⟨m, b⟩⟩ := b <;> cases k <;> rfl
    rw [hcount, hcount]
    exact twin_prepend hk hb
  | true =>
    have hcount (plan : Plan) (k : Option Key) (d : Node) (r : List Node) (s : State) :
        countEntry plan k true (d :: r) s =
          ([d] ++ ((countBefore plan k ((r.head?.map Node.place).getD d.place) s).1.toList ++ r),
            (countBefore plan k ((r.head?.map Node.place).getD d.place) s).2) := by
      cases k <;> cases r <;> rfl
    obtain ⟨d, r, r', rfl, rfl, hd, hr⟩ := hdoc rfl
    refine .lift fun s s' hs ↦ ?_
    rw [hcount, hcount, hr.heads]
    obtain ⟨hlinked, hlevel⟩ := hs.countAt plan hk ((r'.head?.map Node.place).getD d.place) hr.nodes.level
    exact ⟨hlinked, hd.level.append hlevel⟩

theorem twin_addFallback (hk : Projected kept kind k k') {e e' : Node} (he : Alike first kept n e e')
    {cs cs' : List Node} (hcs : LevelNodes first kept cs cs') :
    Twin first kept (liftM (addFallback plan k e cs) : ExceptT ε (StateM State) (List Node))
      (liftM (addFallback { plan with counts := kept } k' e' cs') : ExceptT ε' (StateM State) (List Node))
      (LevelNodes first kept) := by
  refine .lift fun s s' hs ↦ ?_
  cases hk with
  | refused => exact ⟨hs, hcs⟩
  | counted key hkey hkind =>
    refine ⟨(hs.inject Probe.fallbackSize (Probe.fallback plan key e.place)).inject' Probe.fallbackSize
      (Probe.fallback plan key e'.place), hcs.append fun o _ ↦ ?_⟩
    rw [he.place, he.place']
    have hviews : (Probe.fallback plan key (n.place.fill o) s.next).views first kept =
        (Probe.fallback plan key (n.place.fill o) s'.next).views first everyKind :=
      Probe.views_fallback_kept hs.next hs.next' hkey hkind rfl
    change viewNodes first kept (fillNodes o [Probe.fallback plan key n.place s.next]) =
      viewNodes first everyKind (fillNodes o [Probe.fallback plan key n.place s'.next])
    simp [Probe.fillPlaces_fallback, hviews]
  | dropped key hkey hkind =>
    refine ⟨hs.inject Probe.fallbackSize (Probe.fallback plan key e.place), fun o ho ↦ ?_⟩
    have hviews : (Probe.fallback plan key (e.place.fill o) s.next).views first kept = [] :=
      Probe.views_fallback_dropped hs.next hkey hkind
    change viewNodes first kept (fillNodes o (cs ++ [Probe.fallback plan key e.place s.next])) =
      viewNodes first everyKind (fillNodes o cs')
    simp [Probe.fillPlaces_fallback, hviews, hcs o ho]

/-- The body of a `try` takes numbers from its guard. -/
theorem Linked.guard (h : Linked first kept s s') (plan : Plan) {ok error : Key} {k₀ k₁ : Option Key}
    (hok : Projected kept .branch (some ok) k₀) (herror : Projected kept .branch (some error) k₁)
    (hb : AlikeBlock first kept b b') :
    Linked first kept (guardBody plan [some ok, some error] b s).2
        (guardBody { plan with counts := kept } [k₀, k₁] b' s').2 ∧
      LevelNodes first kept (guardBody plan [some ok, some error] b s).1
        (guardBody { plan with counts := kept } [k₀, k₁] b' s').1 := by
  have hheads := hb.heads
  obtain _ | ⟨n, r⟩ := b
  · obtain rfl : b' = [] := by simpa using hheads.symm
    have hnil : guardBody { plan with counts := kept } [k₀, k₁] [] = pure [] := by cases k₀ <;> cases k₁ <;> rfl
    rw [hnil]
    exact ⟨h, alikeNodes_nil.level⟩
  obtain _ | ⟨n', r'⟩ := b'
  · simp at hheads
  have hplace : n.place = n'.place := by simpa using hheads
  have hlinked := h.inject Probe.guardSize (Probe.guard plan ok error n.place (n :: r))
  have hinner {o : Place} (ho : o.span?.isSome = true) := Place.span?_fill n.place ho
  cases hok with
  | counted _ hkey hkind =>
    cases herror with
    | dropped _ _ hdropped => simp [hkind] at hdropped
    | counted =>
      refine ⟨hlinked.inject' Probe.guardSize (Probe.guard plan ok error n'.place (n' :: r')), fun o ho ↦ ?_⟩
      have hviews : (Probe.guard plan ok error (n.place.fill o) (fillNodes (n.place.fill o) (n :: r)) s.next).views
          first kept =
            (Probe.guard plan ok error (n.place.fill o) (fillNodes (n.place.fill o) (n' :: r')) s'.next).views
              first everyKind :=
        Probe.views_guard_kept h.next h.next' hkey hkind rfl error (hb.nodes _ _ (hinner ho) (hinner ho))
      change viewNodes first kept (fillNodes o [Probe.guard plan ok error n.place (n :: r) s.next]) =
        viewNodes first everyKind (fillNodes o [Probe.guard plan ok error n'.place (n' :: r') s'.next])
      rw [← hplace]
      simpa [Probe.fillPlaces_guard] using hviews
  | dropped _ hkey hkind =>
    cases herror with
    | counted _ _ hcounted => simp [hkind] at hcounted
    | dropped =>
      refine ⟨hlinked, fun o ho ↦ ?_⟩
      have hviews : (Probe.guard plan ok error (n.place.fill o) (fillNodes (n.place.fill o) (n :: r)) s.next).views
          first kept = viewNodes first everyKind (fillNodes o (n' :: r')) := by
        rw [Probe.views_guard_dropped h.next hkey hkind, hb.nodes _ _ (hinner ho) ho]
      change viewNodes first kept (fillNodes o [Probe.guard plan ok error n.place (n :: r) s.next]) =
        viewNodes first everyKind (fillNodes o (n' :: r'))
      rw [← hviews, fillNodes_cons, Probe.fillPlaces_guard]
      simp

/-- The arms of a `try` are of one kind, so both are counted or none. -/
theorem twin_guardBody {keys keys' : List (Option Key)} (hkeys : ArmKeys kept keys keys')
    (hb : AlikeBlock first kept b b') :
    Twin first kept (liftM (guardBody plan keys b) : ExceptT ε (StateM State) (List Node))
      (liftM (guardBody { plan with counts := kept } keys' b') : ExceptT ε' (StateM State) (List Node))
      (LevelNodes first kept) := by
  have hbare {plan : Plan} {keys : List (Option Key)} {b : List Node}
      (h : ∀ ok error, keys ≠ [some ok, some error]) : guardBody plan keys b = pure b := by
    unfold guardBody
    split
    next ok error _ _ => exact absurd rfl (h ok error)
    next => rfl
  -- Without two keys there is no guard in either pass.
  have hnone (hkeys : ∀ ok error, keys ≠ [some ok, some error]) (hkeys' : ∀ ok error, keys' ≠ [some ok, some error]) :
      Twin first kept (liftM (guardBody plan keys b) : ExceptT ε (StateM State) (List Node))
        (liftM (guardBody { plan with counts := kept } keys' b') : ExceptT ε' (StateM State) (List Node))
        (LevelNodes first kept) := by
    rw [hbare hkeys, hbare hkeys']
    exact .pure hb.nodes.level
  obtain _ | @⟨k₀, k₀', _, _, hok, _ | @⟨k₁, k₁', _, _, herror, _ | _⟩⟩ := hkeys
  · exact hnone nofun nofun
  · exact hnone nofun nofun
  · obtain _ | ok := k₀
    · cases hok
      exact hnone nofun nofun
    obtain _ | error := k₁
    · cases herror
      exact hnone nofun nofun
    exact .lift fun s s' hs ↦ hs.guard plan hok herror hb
  · exact hnone nofun nofun

/-! ## Slots -/

/-- What the two passes make of a block. If the block is a body with a docstring, the docstring comes first. -/
structure AlikeSlots (first : NodeId) (kept : Kind → Bool) (doc : Bool) (ns : List Node) (slots slots' : List Slot) :
    Prop where
  empty : slots = [] ↔ slots' = []
  block : AlikeBlock first kept (finished slots) (finished slots')
  docstring : doc = true → ∀ d rest, ns = d :: rest → d.isDocstring = true →
    ∃ r r', finished slots = d :: r ∧ finished slots' = d :: r' ∧ AlikeNodes first kept [d] [d] ∧
      AlikeBlock first kept r r'

/-- An `else` that is added for a counter is left out with it. -/
theorem twin_elseClause (hk : Projected kept kind k k') (header : Place) {slots slots' : List Slot}
    (h : AlikeSlots first kept false ns slots slots') :
    Twin first kept (liftM (elseClause plan k header slots) : ExceptT ε (StateM State) (List Node))
      (liftM (elseClause { plan with counts := kept } k' header slots') : ExceptT ε' (StateM State) (List Node))
      (LevelNodes first kept) := by
  have hlone (plan : Plan) (k : Option Key) (s : State) : elseClause plan k header [] s =
      ((countBefore plan k header s).1.toList ++ [], (countBefore plan k header s).2) := by
    cases k <;> rfl
  cases slots with
  | nil =>
    obtain rfl := h.empty.1 rfl
    refine .lift fun s s' hs ↦ ?_
    rw [hlone, hlone]
    exact hs.countAt plan hk header alikeNodes_nil.level
  | cons slot slots =>
    cases slots' with
    | nil => cases h.empty.2 rfl
    | cons slot' slots' => exact twin_prepend hk h.block

/-- Nothing is left to walk through. -/
theorem alikeSlots_nil (doc : Bool) : AlikeSlots first kept doc [] [] [] where
  empty := Iff.rfl
  block := ⟨alikeNodes_nil, rfl⟩
  docstring := nofun

end Injection

end Coverage.Pass
