import Coverage.Proofs.Pass.Arms
import Coverage.Proofs.Pass.Primitive

/-!
# What a walk does

Every part of a walk enrols the sites of its part of the tree and leaves a woven one. There is one lemma for
each kind of node, which takes what is known of the parts of the node; a recursion over trees puts them
together.
-/

namespace Coverage.Pass

open Syntax Program

variable {plan : Plan} {marks : Marks} {first : NodeId}
variable {n test tree : Node} {i next : NodeId} {c : NodeClass} {p : Place} {fs : List Field}
  {body orelse rest : List Node} {doc : Bool}

/-! ## Sites that offer nothing -/

/-- Sites that leave every record as it is. -/
structure Idle (plan : Plan) (sites : List Site) (tags : List Tag) : Prop where
  enrolAll_eq : ∀ m, enrolAll plan m sites = ⟨m, tags, [], []⟩
  armed : ∀ site ∈ sites, site.Armed

theorem idle_hush (ids : List NodeId) : Idle plan (hush ids) (hushTags ids) where
  enrolAll_eq m := enrolAll_hush plan m ids
  armed site hsite := by
    obtain ⟨i, -, hi⟩ := List.mem_flatMap.1 hsite
    have hquiet : site = .quiet (.started i) ∨ site = .silent i := by simpa using hi
    rcases hquiet with rfl | rfl <;> trivial

theorem idle_quiet (event : Event) : Idle plan [.quiet event] [.label event none] :=
  ⟨fun _ ↦ rfl, by simp [Site.Armed]⟩

theorem idle_silent (i : NodeId) : Idle plan [.silent i] [.silent i] := ⟨fun _ ↦ rfl, by simp [Site.Armed]⟩

theorem idle_if (b : Bool) (event : Event) :
    Idle plan (if b then [.quiet event] else []) (if b then [.label event none] else []) := by
  cases b with
  | true => exact idle_quiet event
  | false => exact ⟨fun _ ↦ rfl, by simp⟩

theorem Idle.append {a b : List Site} {x y : List Tag} (h : Idle plan a x) (h' : Idle plan b y) :
    Idle plan (a ++ b) (x ++ y) where
  enrolAll_eq m := by
    rw [enrolAll_append, h.enrolAll_eq, h'.enrolAll_eq]
    rfl
  armed site hsite := (List.mem_append.1 hsite).elim (h.armed site) (h'.armed site)

/-- Sites that offer nothing can stand in front. -/
theorem Part.idle {ε α : Type} {own ids : List NodeId} {quiet sites : List Site} {tags : List Tag}
    {x : ExceptT ε (StateM State) α} {R : Marks → List Tag → α → Prop} (h : Idle plan quiet tags)
    (hx : Part plan marks first own ids sites x fun final t a ↦ R final (tags ++ t) a) :
    Part plan marks first own ids (quiet ++ sites) x R := by
  intro s a s' hs hready hy
  obtain ⟨t, hw, hR⟩ := hx s a s' hs hready hy
  have hidle : Walked plan (own ++ ids) quiet tags s s :=
    ⟨Nat.le_refl _, fun _ h ↦ h, fun _ _ _ ↦ rfl, by rw [h.enrolAll_eq], by rw [h.enrolAll_eq],
      by rw [h.enrolAll_eq, List.append_nil], fun _ ↦ h.armed⟩
  exact ⟨tags ++ t, hidle.trans hw, hR⟩

/-! ## Registration -/

theorem part_registerUnit {kind : Kind} {name : Option String} (event : Event) :
    Part plan marks first [] [] [.unit event kind (spanOf n) name] (registerUnit plan kind n name)
      fun _ t key ↦ t = [.label event key] :=
  fun _ _ _ _ _ h ↦ ⟨_, registerUnit_spec event h, fun _ _ ↦ rfl⟩

theorem part_registerUnit_gap {kind : Kind} {name : Option String} :
    Part plan marks first [] [] [] (registerUnit plan kind .gap name) fun _ t key ↦ t = [] ∧ key = none := by
  intro s key s' _ _ h
  unfold registerUnit at h
  split at h
  next =>
    obtain ⟨span, t, hspan, -⟩ := yields_bind.1 h
    exact absurd hspan not_yields_throw
  next =>
    obtain ⟨rfl, rfl⟩ := yields_pure.1 h
    exact ⟨[], .refl, fun _ _ ↦ ⟨rfl, rfl⟩⟩

theorem zipWith_label_took (i : NodeId) (a n : Nat) (keys : List (Option Key)) (h : keys.length = n) :
    List.zipWith Tag.label ((List.range' a n).map (Event.took i)) keys = armTags i a keys := by
  induction keys generalizing a n with
  | nil => simp [armTags]
  | cons key keys ih =>
    subst h
    simp [List.range'_succ, armTags, ih]

theorem length_settledKeys (construct : Construct) (keys : List (Option Key)) :
    (settledKeys construct keys).length = keys.length := by
  unfold settledKeys
  split <;> simp

theorem settledKeys_of_ne {construct : Construct} (h : construct ≠ .tryBody) (keys : List (Option Key)) :
    settledKeys construct keys = keys := by
  simp [settledKeys, h]

/-- The arms of a node are offered as one group. -/
theorem part_registerGroup {construct : Construct} (i : NodeId) (spans : List Span) :
    Part plan marks first [] [] [.fork construct (spanOf n) (numbered i 0 spans)]
      (registerGroup plan construct n spans)
      fun _ t keys ↦ t = armTags i 0 (settledKeys construct keys) ∧ keys.length = spans.length := by
  intro s keys s' _ _ h
  rw [← map_snd_numbered i 0 spans] at h
  obtain ⟨hw, hlength⟩ := registerGroup_spec _ h
  rw [map_fst_numbered] at hw
  have hkeys : keys.length = spans.length := by
    rw [hlength, ← List.length_map (fun arm ↦ arm.2), map_snd_numbered]
  rw [zipWith_label_took _ _ _ _ (by rw [length_settledKeys, hkeys])] at hw
  exact ⟨_, hw, fun _ _ ↦ ⟨rfl, hkeys⟩⟩

theorem part_located {own ids : List NodeId} {sites : List Site} {α β : Type} {x : Except Unlocated α}
    {f : α → Step β} {R : Marks → List Tag → β → Prop}
    (hf : ∀ a, x = .ok a → Part plan marks first own ids sites (f a) R) :
    Part plan marks first own ids sites (located x >>= f) R := by
  intro s b s' hs hready h
  obtain ⟨a, t, ha, h⟩ := yields_bind.1 h
  obtain ⟨hx, rfl⟩ := yields_located.1 ha
  exact hf a hx s b s' hs hready h

/-- The arms of a node are located and offered as one group. -/
theorem part_fork {construct : Construct} (i : NodeId) (arms : Except Unlocated (List Span)) :
    Part plan marks first [] [] [.fork construct (spanOf n) (numbered i 0 (spansOf arms))]
      (do registerGroup plan construct n (← located arms))
      fun _ t keys ↦ t = armTags i 0 (settledKeys construct keys) ∧
        ∃ spans, arms = .ok spans ∧ keys.length = spans.length := by
  refine part_located fun spans hspans ↦ ?_
  subst hspans
  exact (part_registerGroup i spans).imp fun _ _ _ h ↦ ⟨h.1, spans, rfl, h.2⟩

/-- The two arms of a conditional expression are located one after the other. -/
theorem part_ternary {body orelse : Node} (i : NodeId) :
    Part plan marks first [] [] [.fork .ternary (spanOf n) (numbered i 0 [spanOf body, spanOf orelse])]
      (do
        let first ← located (locate body)
        let second ← located (locate orelse)
        registerGroup plan .ternary n [first, second])
      fun _ t keys ↦ t = armTags i 0 keys ∧ keys.length = 2 := by
  refine part_located fun span₀ h₀ ↦ part_located fun span₁ h₁ ↦ ?_
  rw [spanOf_eq h₀, spanOf_eq h₁]
  exact (part_registerGroup i [span₀, span₁]).imp fun _ _ _ h ↦
    ⟨by rw [h.1, settledKeys_of_ne (by decide)], h.2⟩

theorem part_firstIsDocstring (body : List Node) :
    Part plan marks first [] [] [] (firstIsDocstring body)
      fun _ t doc ↦ t = [] ∧ doc = startsWithDocstring body ∧ body ≠ [] := by
  intro s doc s' _ _ h
  cases body with
  | nil => exact absurd h not_yields_throw
  | cons n body =>
    obtain ⟨rfl, rfl⟩ := yields_pure.1 h
    exact ⟨[], .refl, fun _ _ ↦ ⟨rfl, rfl, by simp⟩⟩

theorem part_lastIsDefault (cases : List Node) :
    Part plan marks first [] [] [] (lastIsDefault cases)
      fun _ t d ↦ t = [] ∧ d = (cases.getLast?.map (·.isDefaultCase)).getD false := by
  intro s d s' _ _ h
  unfold lastIsDefault at h
  cases hlast : cases.getLast? with
  | none =>
    rw [hlast] at h
    exact absurd h not_yields_throw
  | some c =>
    rw [hlast] at h
    obtain ⟨rfl, rfl⟩ := yields_pure.1 h
    exact ⟨[], .refl, fun _ _ ↦ ⟨rfl, rfl⟩⟩

/-! ## Parts of a tree -/

section Follows

variable (plan marks first)

/-- The walk into a node weaves it. The node itself may be marked later. -/
def Follows : Node → Prop
  | .gap => True
  | .mk i c p fs =>
    Part plan marks first [i] (fieldsIds fs) (sites plan marks (.mk i c p fs)) (visit plan (.mk i c p fs))
      fun final ↦ Woven plan marks first final (.mk i c p fs)

def FollowsAll (ns : List Node) : Prop :=
  Part plan marks first [] (nodesIds ns) (allSites plan marks ns) (visitAll plan ns)
    fun final ↦ WovenAll plan marks first final ns

def FollowsBlock (doc : Bool) (ns : List Node) : Prop :=
  Part plan marks first [] (nodesIds ns) (blockSites plan marks doc ns) (visitBlock plan doc ns)
    fun final t slots ↦ WovenBlock plan marks first final doc ns t (finished slots)

def FollowsField (f : Field) : Prop :=
  Part plan marks first [] f.ids (fieldSites plan marks f) (visitField plan f)
    fun final ↦ WovenField plan marks first final f

def FollowsFields (names : List String) (fs : List Field) : Prop :=
  Part plan marks first [] (fieldsIds fs) (fieldsSites plan marks names fs) (visitFields plan names fs)
    fun final ↦ WovenFields plan marks first final names fs

def FollowsHandlers (hs : List Node) : Prop :=
  Part plan marks first [] (nodesIds hs) (handlerSites plan marks hs) (visitHandlers plan hs)
    fun final ↦ WovenHandlers plan marks first final hs

def FollowsOperands (vs : List Node) : Prop :=
  ∀ keys : List (Option Key), keys.length = vs.length →
    Part plan marks first [] (nodesIds vs) (allSites plan marks vs) (visitOperands plan keys vs)
      fun final t slots ↦ WovenOperands plan marks first final keys vs t (slots.map (·.2))

/-- The walk through cases that can be located. -/
def FollowsCases (cs : List Node) : Prop :=
  ∀ (keys more : List (Option Key)) (arms : List Span), cs.mapM caseArm = .ok arms → keys.length = cs.length →
    Part plan marks first [] (nodesIds cs) (caseSites plan marks cs) (visitCases plan (keys ++ more) cs)
      fun final ↦ WovenCases plan marks first final keys cs

/-- The walk along an `if` chain with a key for each arm. -/
def FollowsChain (i : NodeId) (p : Place) (fs : List Field) : Prop :=
  ∀ (keys : List (Option Key)) (arms : List Span), chainArms plan marks (.mk i .ifStmt p fs) = .ok arms →
    keys.length = arms.length →
    Part plan marks first [i] (fieldsIds fs) (chainSites plan marks i fs) (visitChain plan i p keys fs)
      fun final ↦ WovenChain plan marks first final i p
        (List.zipWith Tag.label (chainEvents plan marks (.mk i .ifStmt p fs)) keys) fs

end Follows

attribute [local simp] visit visitChain visitBlock visitOperands visitCases visitHandlers visitFields visitField
  visitAll in
theorem visit_gap : visit plan .gap = pure .gap := by simp

/-- The walk into a node as a part of a larger walk. -/
theorem Follows.part (h : Follows plan marks first n) :
    Part plan marks first [] n.ids (sites plan marks n) (visit plan n)
      fun final ↦ Woven plan marks first final n := by
  cases n with
  | gap =>
    rw [visit_gap, sites_gap]
    exact .pure fun _ ↦ .gap
  | mk i c p fs =>
    refine Part.conv h (fun j ↦ ?_) rfl
    simp only [Node.ids, List.count_cons, List.count_nil]
    omega

/-! ## Nodes -/

/-- A marked node is left as it is; of the others only the walk itself has to be looked at. -/
theorem follows_mk {rest : Visit Node Node} (hvisit : visit plan (.mk i c p fs) =
      (do if ← isMarked (.mk i c p fs) then return .mk i c p fs
          rest))
    (hrest : marks.contains i = false →
      Part plan marks first [i] (fieldsIds fs) (sites plan marks (.mk i c p fs)) rest
        fun final ↦ Woven plan marks first final (.mk i c p fs)) :
    Follows plan marks first (.mk i c p fs) := by
  change Part plan marks first [i] _ _ _ _
  rw [hvisit]
  refine Part.isMarked (fun _ h ↦ h) ?_
  change Part _ _ _ _ _ _ (if marks.contains i = true then _ else _) _
  by_cases held : marks.contains i = true
  · rw [if_pos held, sites_of_marked held]
    have hidle : Idle plan (.silent i :: hush (fieldsIds fs)) (.silent i :: hushTags (fieldsIds fs)) :=
      (idle_silent i).append (idle_hush (fieldsIds fs))
    have hleft : Part plan marks first [i] (fieldsIds fs) [] (pure (.mk i c p fs) : Visit Node Node)
        fun final t n ↦
          Woven plan marks first final (.mk i c p fs) (.silent i :: hushTags (fieldsIds fs) ++ t) n := by
      refine .keep (by simpa using held) fun final kept ↦ ?_
      rw [List.append_nil]
      exact .marked held kept
    rw [← List.append_nil (Site.silent i :: hush (fieldsIds fs))]
    exact .idle hidle hleft
  · rw [if_neg held]
    exact hrest (by simpa using held)

/-- The body of a module can start with a docstring. -/
theorem follows_module {ignores : Field} (hb : FollowsBlock plan marks first true body) :
    Follows plan marks first (.mk i .module p [.many body, ignores]) := by
  refine follows_mk (by rw [visit]) fun free ↦ ?_
  rw [sites, if_neg (by simp [free])]
  apply Part.conv
  case hx =>
    apply Part.beside ignores.ids
    apply Part.bind (Part.within hb)
    intro t slots _
    apply Part.bind (part_mark i)
    rintro _ _ ⟨-, rfl, -⟩
    apply Part.pure
    rintro final ⟨-, held⟩ hb kept
    simpa using Woven.module ⟨free, held⟩ hb kept
  case few =>
    intro j
    simp only [fieldsIds_cons, Field.ids_many, List.count_append, List.count_cons, List.count_nil]
    omega
  case same => simp

theorem follows_classDef {name : Field} {bases keywords decorators : List Node}
    (hds : FollowsAll plan marks first decorators) (hbs : FollowsAll plan marks first bases)
    (hks : FollowsAll plan marks first keywords) (hb : FollowsBlock plan marks first true body) :
    Follows plan marks first
      (.mk i .classDef p [name, .many bases, .many keywords, .many body, .many decorators]) := by
  refine follows_mk (by rw [visit]) fun free ↦ ?_
  rw [sites, if_neg (by simp [free])]
  apply Part.conv
  case hx =>
    apply Part.beside name.ids
    apply Part.bind (Part.within hds)
    intro t₁ ds _
    apply Part.bind (Part.within hbs)
    intro t₂ bs _
    apply Part.bind (Part.within hks)
    intro t₃ ks _
    apply Part.bind (Part.within hb)
    intro t₄ slots _
    apply Part.pure
    rintro final hb hks hbs hds kept
    simpa using Woven.classDef free hds hbs hks hb kept
  case few =>
    intro j
    simp only [fieldsIds_cons, Field.ids_many, List.count_append, List.count_cons, List.count_nil]
    omega
  case same => simp

theorem follows_lambda {args body : Node} (ha : Follows plan marks first args) (hb : Follows plan marks first body) :
    Follows plan marks first (.mk i .lambda p [.child args, .child body]) := by
  refine follows_mk (by rw [visit]) fun free ↦ ?_
  rw [sites, if_neg (by simp [free])]
  apply Part.conv
  case hx =>
    apply Part.bind (Part.leaving (part_registerUnit (.entered i)))
    rintro _ key ⟨-, rfl⟩
    apply Part.bind (Part.within ha.part)
    intro t₁ a _
    apply Part.bind (Part.within hb.part)
    intro t₂ b _
    apply Part.bind (part_wrap key b)
    rintro _ b' ⟨-, rfl, -⟩
    apply Part.bind (part_mark i)
    rintro _ _ ⟨-, rfl, -⟩
    apply Part.pure
    rintro final ⟨-, held⟩ ⟨-, entry⟩ hb ha -
    simpa using Woven.lambda ⟨free, held⟩ ha hb entry
  case few =>
    intro j
    simp only [fieldsIds_cons, Field.ids_child, List.count_append, List.count_cons, List.count_nil]
    omega
  case same => simp

theorem follows_ifExp {body orelse : Node} (ht : Follows plan marks first test) (hb : Follows plan marks first body)
    (ho : Follows plan marks first orelse) :
    Follows plan marks first (.mk i .ifExp p [.child test, .child body, .child orelse]) := by
  refine follows_mk (by rw [visit]) fun free ↦ ?_
  rw [sites, if_neg (by simp [free])]
  apply Part.conv
  case hx =>
    apply Part.bind (Part.leaving (part_ternary i))
    rintro _ keys ⟨-, rfl, hlength⟩
    obtain ⟨k₀, k₁, rfl⟩ := List.length_eq_two.1 hlength
    apply Part.bind (Part.within ht.part)
    intro t₁ t _
    apply Part.bind (Part.within hb.part)
    intro t₂ b _
    apply Part.bind (part_wrap k₀ b)
    rintro _ b' ⟨-, rfl, -⟩
    apply Part.bind (Part.within ho.part)
    intro t₃ o _
    apply Part.bind (part_wrap k₁ o)
    rintro _ o' ⟨-, rfl, -⟩
    apply Part.bind (part_mark i)
    rintro _ _ ⟨-, rfl, -⟩
    apply Part.pure
    rintro final ⟨-, held⟩ ⟨-, arm₁⟩ ho ⟨-, arm₀⟩ hb ht -
    simpa using Woven.ifExp ⟨free, held⟩ ht hb ho arm₀ arm₁
  case few =>
    intro j
    simp only [fieldsIds_cons, Field.ids_child, List.count_append, List.count_cons, List.count_nil]
    omega
  case same => simp

theorem WovenBlock.ne_nil {final : Marks} {b : List Node} {t : List Tag}
    (h : WovenBlock plan marks first final doc body t b) (hbody : body ≠ []) : b ≠ [] := by
  cases h with
  | nil => exact absurd rfl hbody
  | skip => simp
  | gap => simp
  | stmt _ _ _ _ counted => cases counted <;> simp

/-- A function is registered before its parts and counted after its docstring. -/
theorem follows_functionDef {async : Bool} {name : String} {args : Node}
    {decorators : List Node} {returns comment : Field} (hds : FollowsAll plan marks first decorators)
    (ha : Follows plan marks first args) (hb : FollowsBlock plan marks first true body) :
    Follows plan marks first (.mk i (.functionDef async) p
      [.text name, .child args, .many body, .many decorators, returns, comment]) := by
  refine follows_mk (by rw [visit]) fun free ↦ ?_
  rw [sites, if_neg (by simp [free])]
  apply Part.conv
  case hx =>
    apply Part.beside (returns.ids ++ comment.ids)
    apply Part.bind (Part.leaving (part_registerUnit (.entered i)))
    rintro _ key ⟨-, rfl⟩
    apply Part.bind (Part.within hds)
    intro t₁ ds _
    apply Part.bind (Part.within ha.part)
    intro t₂ a _
    apply Part.bind (Part.leaving (part_firstIsDocstring body))
    rintro _ doc ⟨-, rfl, rfl, hbody⟩
    apply Part.bind (Part.within hb)
    rintro t₃ slots ⟨_, hb⟩
    apply Part.bind (part_countEntry key _ (hb.ne_nil hbody))
    rintro _ b' ⟨-, rfl, -⟩
    apply Part.pure
    rintro final ⟨-, entry⟩ hb - ha hds - kept
    simpa using Woven.functionDef free hds ha hb entry kept
  case few =>
    intro j
    simp only [fieldsIds_cons, Field.ids_child, Field.ids_many, List.count_append, List.count_cons, List.count_nil]
    omega
  case same => simp

theorem follows_boolOp {op : Field} {values : List Node} (hvs : FollowsOperands plan marks first values) :
    Follows plan marks first (.mk i .boolOp p [op, .many values]) := by
  refine follows_mk (by rw [visit]) fun free ↦ ?_
  rw [sites, if_neg (by simp [free])]
  apply Part.conv
  case hx =>
    apply Part.beside op.ids
    apply Part.bind (Part.leaving (part_fork i (values.mapM locate)))
    rintro _ keys ⟨-, rfl, spans, hspans, hlength⟩
    apply Part.bind (Part.within (hvs keys (hlength.trans (length_of_mapM_ok hspans))))
    intro t slots _
    apply Part.bind (part_mark i)
    rintro _ _ ⟨-, rfl, -⟩
    apply Part.pure
    rintro final ⟨-, held⟩ hvs - kept
    rw [settledKeys_of_ne (by decide)]
    simpa using Woven.boolOp ⟨free, held⟩ hvs kept
  case few =>
    intro j
    simp only [fieldsIds_cons, Field.ids_many, List.count_append, List.count_cons, List.count_nil]
    omega
  case same => simp

theorem follows_whileLoop (ht : Follows plan marks first test) (hb : FollowsBlock plan marks first false body)
    (ho : FollowsBlock plan marks first false orelse) :
    Follows plan marks first (.mk i .whileLoop p [.child test, .many body, .many orelse]) := by
  refine follows_mk (by rw [visit]) fun free ↦ ?_
  rw [sites, if_neg (by simp [free])]
  apply Part.conv
  case hx =>
    apply Part.bind (Part.leaving (part_fork i (loopArms test body orelse)))
    rintro _ keys ⟨-, rfl, spans, hspans, hlength⟩
    obtain ⟨htwo, hbody⟩ := loopArms_ok hspans
    obtain ⟨k₀, k₁, rfl⟩ := List.length_eq_two.1 (hlength.trans htwo)
    apply Part.bind (Part.within ht.part)
    intro t₁ t _
    apply Part.bind (Part.within hb)
    rintro t₂ slots ⟨_, hb⟩
    apply Part.bind (part_prepend k₀ (hb.ne_nil hbody))
    rintro _ b' ⟨-, rfl, -⟩
    apply Part.bind (Part.within ho)
    intro t₃ slots' _
    apply Part.bind (part_elseClause k₁ t.place slots')
    rintro _ o' ⟨-, rfl, -⟩
    apply Part.pure
    rintro final ⟨-, arm₁⟩ ho ⟨-, arm₀⟩ hb ht -
    rw [settledKeys_of_ne (by decide)]
    simpa using Woven.whileLoop free ht hb arm₀ ho arm₁
  case few =>
    intro j
    simp only [fieldsIds_cons, Field.ids_child, Field.ids_many, List.count_append, List.count_cons, List.count_nil]
    omega
  case same => simp

theorem follows_forLoop {async : Bool} {target iter : Node}
    {comment : Field} (ht : Follows plan marks first target) (hs : Follows plan marks first iter)
    (hb : FollowsBlock plan marks first false body) (ho : FollowsBlock plan marks first false orelse) :
    Follows plan marks first (.mk i (.forLoop async) p
      [.child target, .child iter, .many body, .many orelse, comment]) := by
  refine follows_mk (by rw [visit]) fun free ↦ ?_
  rw [sites, if_neg (by simp [free])]
  apply Part.conv
  case hx =>
    apply Part.beside comment.ids
    apply Part.bind (Part.leaving (part_fork i (loopArms iter body orelse)))
    rintro _ keys ⟨-, rfl, spans, hspans, hlength⟩
    obtain ⟨htwo, hbody⟩ := loopArms_ok hspans
    obtain ⟨k₀, k₁, rfl⟩ := List.length_eq_two.1 (hlength.trans htwo)
    apply Part.bind (Part.within ht.part)
    intro t₁ t _
    apply Part.bind (Part.within hs.part)
    intro t₂ s _
    apply Part.bind (Part.within hb)
    rintro t₃ slots ⟨_, hb⟩
    apply Part.bind (part_prepend k₀ (hb.ne_nil hbody))
    rintro _ b' ⟨-, rfl, -⟩
    apply Part.bind (Part.within ho)
    intro t₄ slots' _
    apply Part.bind (part_elseClause k₁ s.place slots')
    rintro _ o' ⟨-, rfl, -⟩
    apply Part.pure
    rintro final ⟨-, arm₁⟩ ho ⟨-, arm₀⟩ hb hs ht - kept
    rw [settledKeys_of_ne (by decide)]
    simpa using Woven.forLoop free ht hs hb arm₀ ho arm₁ kept
  case few =>
    intro j
    simp only [fieldsIds_cons, Field.ids_child, Field.ids_many, List.count_append, List.count_cons, List.count_nil]
    omega
  case same => simp

/-- The body of a `try` is guarded after its other blocks are walked. -/
theorem follows_tryStmt {star : Bool} {handlers finalbody : List Node}
    (hb : FollowsBlock plan marks first false body) (hh : FollowsHandlers plan marks first handlers)
    (ho : FollowsBlock plan marks first false orelse) (hf : FollowsBlock plan marks first false finalbody) :
    Follows plan marks first (.mk i (.tryStmt star) p
      [.many body, .many handlers, .many orelse, .many finalbody]) := by
  refine follows_mk (by rw [visit]) fun free ↦ ?_
  rw [sites, if_neg (by simp [free])]
  apply Part.conv
  case hx =>
    apply Part.bind (Part.leaving (part_fork i (tryArms body handlers finalbody)))
    rintro _ keys ⟨-, rfl, spans, hspans, hlength⟩
    obtain ⟨htwo, hbody⟩ := tryArms_ok hspans
    obtain ⟨k₀, k₁, rfl⟩ := List.length_eq_two.1 (hlength.trans htwo)
    apply Part.bind (Part.within hb)
    rintro t₁ slots ⟨_, hb⟩
    apply Part.bind (Part.within hh)
    intro t₂ h _
    apply Part.bind (Part.within ho)
    intro t₃ o _
    apply Part.bind (Part.within hf)
    intro t₄ f _
    apply Part.bind (part_guardBody k₀ k₁ (hb.ne_nil hbody))
    rintro _ b' ⟨-, rfl, -⟩
    apply Part.pure
    rintro final ⟨-, k₀', k₁', hkeys, arms⟩ hf ho hh hb -
    rw [hkeys]
    simpa using Woven.tryStmt free hb hh ho hf arms
  case few =>
    intro j
    simp only [fieldsIds_cons, Field.ids_many, List.count_append, List.count_cons, List.count_nil]
    omega
  case same => simp

/-- The keys of the arms of a `match`: one for each case, and one for a subject that no case matches. -/
theorem exists_case_keys {keys : List (Option Key)} {hasDefault : Bool} {n : Nat} (i : NodeId)
    (h : keys.length = if hasDefault then n else n + 1) :
    ∃ ks more k, keys = ks ++ more ∧ ks.length = n ∧
      armTags i 0 keys ++ (if hasDefault then [.label (.took i n) none] else []) = armTags i 0 (ks ++ [k]) ∧
      (if hasDefault then k = none else keyAt keys n = k) := by
  cases hasDefault with
  | true =>
    refine ⟨keys, [], none, by simp, h, ?_, rfl⟩
    have h : keys.length = n := h
    simp [armTags_append, armTags, h]
  | false =>
    have h : keys.length = n + 1 := h
    obtain rfl | ⟨ks, k, hkeys⟩ := List.eq_nil_or_concat keys
    · simp at h
    · rw [List.concat_eq_append] at hkeys
      subst hkeys
      have hks : ks.length = n := by simpa using h
      exact ⟨ks, [k], k, rfl, hks, by simp, by simp [keyAt, ← hks]⟩

/-- Without a default case there is one for a subject that no case matches, if that is counted. -/
theorem part_complete {hasDefault : Bool} {k key : Option Key} (subject : Node) (cs : List Node)
    (g : List Node → Node) (hk : if hasDefault then k = none else key = k) :
    Part plan marks first [] [] []
      (if hasDefault = true then do
          let cs ← pure cs
          pure (g cs)
        else do
          let cs ← addFallback plan key subject cs
          pure (g cs) : Visit Node Node)
      fun final t n ↦ t = [] ∧ ∃ cs', Completed plan first final k subject.place cs cs' ∧ n = g cs' := by
  cases hasDefault with
  | true =>
    obtain rfl : k = none := hk
    exact .pure fun _ ↦ ⟨rfl, cs, .bare, rfl⟩
  | false =>
    obtain rfl : key = k := hk
    refine Part.bind (part_addFallback key subject cs) ?_
    rintro _ cs' ⟨-, rfl, -⟩
    exact .pure fun _ h ↦ ⟨rfl, cs', h.2, rfl⟩

/-- A `match` without a default gets a last case. -/
theorem follows_matchStmt {subject : Node} {cases : List Node}
    (hs : Follows plan marks first subject) (hcs : FollowsCases plan marks first cases) :
    Follows plan marks first (.mk i .matchStmt p [.child subject, .many cases]) := by
  refine follows_mk (by rw [visit]) fun free ↦ ?_
  rw [sites, if_neg (by simp [free])]
  obtain ⟨d, hd⟩ : ∃ d, (cases.getLast?.map (·.isDefaultCase)).getD false = d := ⟨_, rfl⟩
  rw [hd]
  apply Part.conv
  case hx =>
    apply Part.bind (Part.leaving (part_lastIsDefault cases))
    rintro _ _ ⟨-, rfl, rfl⟩
    rw [hd]
    apply Part.bind (Part.leaving (part_fork i (matchArms subject cases d)))
    rintro _ keys ⟨-, rfl, spans, hspans, hlength⟩
    obtain ⟨⟨arms, harms⟩, hcount⟩ := matchArms_ok hspans
    obtain ⟨ks, more, k, rfl, hks, htags, hk⟩ := exists_case_keys i (hlength.trans hcount)
    rw [settledKeys_of_ne (by decide)]
    -- A default case takes the place of the arm that is counted when no case matches.
    apply Part.idle (idle_if d (.took i cases.length))
    apply Part.bind (Part.within hs.part)
    intro t₁ s _
    apply Part.bind (Part.within (hcs ks more arms harms hks))
    intro t₂ cs _
    refine (part_complete s cs _ hk).imp ?_
    rintro final _ _ ⟨rfl, cs', hrest, rfl⟩ hcs hs _ _
    rw [List.nil_append, ← List.append_assoc (armTags i 0 (ks ++ more)), htags, List.append_nil]
    refine .matchStmt free hs hcs hrest fun hdefault ↦ ?_
    rw [hd] at hdefault
    rwa [hdefault] at hk
  case few =>
    intro j
    simp only [fieldsIds_cons, Field.ids_child, Field.ids_many, List.count_append, List.count_cons, List.count_nil]
    omega
  case same => simp

/-- The arms of an `if` chain are located and offered as one group. -/
theorem part_chain (n : Node) :
    Part plan marks first [] []
      [.fork .ifChain (spanOf n) ((chainEvents plan marks n).zip (spansOf (chainArms plan marks n)))]
      (do registerGroup plan .ifChain n (← located (chainArms plan marks n)))
      fun _ t keys ↦ t = List.zipWith Tag.label (chainEvents plan marks n) keys ∧
        ∃ arms, chainArms plan marks n = .ok arms ∧ keys.length = arms.length := by
  refine part_located fun arms harms ↦ ?_
  rw [harms, spansOf_ok]
  intro s keys s' _ _ h
  have hlength := length_chainEvents n harms
  have hspans : ((chainEvents plan marks n).zip arms).map (·.2) = arms :=
    List.map_snd_zip (Nat.le_of_eq hlength.symm)
  have hevents : ((chainEvents plan marks n).zip arms).map (·.1) = chainEvents plan marks n :=
    List.map_fst_zip (Nat.le_of_eq hlength)
  rw [← hspans] at h
  obtain ⟨hw, hkeys⟩ := registerGroup_spec _ h
  rw [hevents, settledKeys_of_ne (by decide)] at hw
  exact ⟨_, hw, fun _ _ ↦ ⟨rfl, arms, rfl, by rw [hkeys, ← List.length_map (fun arm ↦ arm.2), hspans]⟩⟩

/-- The arms of a chain are registered together at its first link. -/
theorem follows_ifStmt (h : FollowsChain plan marks first i p fs) :
    Follows plan marks first (.mk i .ifStmt p fs) := by
  refine follows_mk (by rw [visit]) fun free ↦ ?_
  rw [sites, if_neg (by simp [free])]
  refine Part.get fun s hmarks ↦ ?_
  have hsame : chainArms plan s.marks (.mk i .ifStmt p fs) = chainArms plan marks (.mk i .ifStmt p fs) :=
    chainArms_congr _ hmarks
  dsimp only
  rw [hsame]
  apply Part.conv
  case hx =>
    apply Part.bind (Part.leaving (part_chain (.mk i .ifStmt p fs)))
    rintro _ keys ⟨-, rfl, arms, harms, hkeys⟩
    exact (h keys arms harms hkeys).imp fun _ _ _ hn _ ↦ .ifStmt free hn
  case few => simp
  case same => simp

/-- The walk asks first whether a node is marked. -/
theorem visit_mk (plan : Plan) (i : NodeId) (c : NodeClass) (p : Place) (fs : List Field) :
    ∃ rest : Visit Node Node, visit plan (.mk i c p fs) = (do
      if ← isMarked (.mk i c p fs) then return .mk i c p fs
      rest) := by
  rw [visit.eq_def]
  exact ⟨_, rfl⟩

/-- A node without a rule of its own is walked field by field. -/
theorem visit_of_not_hasRule (noRule : hasRule c fs = false) (p : Place) : visit plan (.mk i c p fs) = (do
      if ← isMarked (.mk i c p fs) then return .mk i c p fs
      return .mk i c p (← within (fun fs ↦ .mk i c p fs) (visitFields plan c.fieldNames fs))) := by
  rw [visit]
  all_goals
    intros
    subst_vars
    simp [hasRule] at noRule

/-- A node for which there is no rule is walked field by field. -/
theorem follows_plain (noRule : hasRule c fs = false)
    (h : FollowsFields plan marks first c.fieldNames fs) : Follows plan marks first (.mk i c p fs) := by
  refine follows_mk (visit_of_not_hasRule noRule p) fun free ↦ ?_
  rw [sites_of_not_hasRule free noRule]
  apply Part.conv
  case hx =>
    apply Part.bind (Part.within h)
    intro t fs' _
    apply Part.pure
    rintro final hfs
    simpa using Woven.plain free noRule hfs
  case few =>
    intro j
    simp only [List.count_append, List.count_cons, List.count_nil]
    omega
  case same => simp

/-! ## Chains -/

theorem followsChain_other (noLink : isLink (.mk i .ifStmt p fs) = false) : FollowsChain plan marks first i p fs := by
  intro keys arms _ _
  obtain ⟨hevents, hsites⟩ := chain_of_not_isLink noLink plan marks
  rw [hevents, List.zipWith_nil_left, hsites, visitChain]
  · refine .conv (.beside (fieldsIds fs) (.pure fun _ kept ↦ .other noLink kept)) ?_ rfl
    simp
  · rintro test body orelse rfl
    simp [isLink] at noLink

/-- The last link has the `else` of the chain. -/
theorem followsChain_last (hlast : hasNextLink plan marks orelse = false) (ht : Follows plan marks first test)
    (hb : FollowsBlock plan marks first false body) (ho : FollowsBlock plan marks first false orelse) :
    FollowsChain plan marks first i p [.child test, .many body, .many orelse] := by
  intro keys arms harms hkeys
  obtain ⟨htwo, hbody⟩ := chainArms_last hlast harms
  obtain ⟨k₀, k₁, rfl⟩ := List.length_eq_two.1 (hkeys.trans htwo)
  have htags : List.zipWith Tag.label [.took i 0, .took i 1] [k₀, k₁] = armTags i 0 [k₀, k₁] := rfl
  rw [chainEvents_last hlast, htags, visitChain]
  apply Part.conv
  case hx =>
    apply Part.bind (Part.within ht.part)
    intro t₁ t _
    apply Part.bind (Part.within hb)
    rintro t₂ slots ⟨_, hb⟩
    apply Part.bind (part_prepend k₀ (hb.ne_nil hbody))
    rintro _ b' ⟨-, rfl, -⟩
    apply Part.bind (part_mark i)
    rintro _ _ ⟨-, rfl, -⟩
    apply Part.bind (Part.within ho)
    intro t₃ slots' _
    apply Part.bind (part_elseClause k₁ t.place slots')
    rintro _ o' ⟨-, rfl, -⟩
    apply Part.pure
    rintro final ⟨-, arm₁⟩ ho ⟨-, held⟩ ⟨-, arm₀⟩ hb ht
    simpa using WovenChain.last held ht hb arm₀ ho arm₁
  case few =>
    intro j
    simp only [fieldsIds_cons, Field.ids_child, Field.ids_many, List.count_append, List.count_cons, List.count_nil]
    omega
  case same =>
    rw [chainSites_last hlast]
    simp

/-- Each other link takes the first key and passes the rest on. -/
theorem followsChain_link {j : NodeId} {q : Place}
    (hnext : continues plan marks (.mk j .ifStmt q fs) = true) (ht : Follows plan marks first test)
    (hb : FollowsBlock plan marks first false body) (hn : FollowsChain plan marks first j q fs) :
    FollowsChain plan marks first i p [.child test, .many body, .many [.mk j .ifStmt q fs]] := by
  intro keys arms harms hkeys
  obtain ⟨span, rest, rfl, hrest, hbody⟩ := chainArms_next hnext harms
  obtain ⟨k, key, key', keys, rfl⟩ : ∃ k key key' more, keys = k :: key :: key' :: more := by
    obtain ⟨_, _, _, _, _, heq⟩ := continues_link hnext
    rw [heq] at hrest
    have hthree : 3 ≤ keys.length := by
      rw [hkeys]
      exact Nat.succ_le_succ (two_le_chainArms hrest)
    match keys, hthree with
    | k :: key :: key' :: more, _ => exact ⟨k, key, key', more, rfl⟩
  have hkeys : (key :: key' :: keys).length = rest.length := by simpa using hkeys
  rw [chainEvents_next hnext, visitChain]
  apply Part.conv
  case hx =>
    apply Part.bind (Part.within ht.part)
    intro t₁ t _
    apply Part.bind (Part.within hb)
    rintro t₂ slots ⟨_, hb⟩
    apply Part.bind (part_prepend k (hb.ne_nil hbody))
    rintro _ b' ⟨-, rfl, -⟩
    apply Part.bind (part_mark i)
    rintro _ _ ⟨-, rfl, -⟩
    apply Part.idle ((idle_quiet (.took i 1)).append (idle_quiet (.started j)))
    apply Part.bind (Part.within (hn _ _ hrest hkeys))
    intro t₃ o _
    apply Part.pure
    rintro final hn ⟨-, held⟩ ⟨-, arm⟩ hb ht
    simpa using WovenChain.link held (passesOver_of_continues hnext) ht hb arm hn
  case few =>
    intro l
    simp only [fieldsIds_cons, Field.ids_child, Field.ids_many, nodesIds, Node.ids, List.count_append,
      List.count_cons, List.count_nil]
    omega
  case same =>
    rw [chainSites_next hnext]
    simp

/-! ## Lists and fields -/

theorem followsAll_nil : FollowsAll plan marks first [] := by
  unfold FollowsAll
  rw [visitAll]
  exact .pure fun _ ↦ .nil

theorem followsAll_cons {ns : List Node} (hn : Follows plan marks first n)
    (hns : FollowsAll plan marks first ns) : FollowsAll plan marks first (n :: ns) := by
  unfold FollowsAll
  rw [visitAll]
  apply Part.conv
  case hx =>
    apply Part.bind (Part.within hn.part)
    intro t₁ n' _
    apply Part.bind (Part.within hns)
    intro t₂ ns' _
    apply Part.pure
    rintro final hns hn
    simpa using WovenAll.cons hn hns
  case few => simp [nodesIds]
  case same => simp [allSites]

theorem followsBlock_nil : FollowsBlock plan marks first doc [] := by
  unfold FollowsBlock
  rw [visitBlock]
  exact .pure fun _ ↦ .nil

/-- A statement that is passed over. -/
theorem part_skip {s : Node} (hover : passesOver plan marks doc s = true)
    (hrest : FollowsBlock plan marks first false rest) :
    Part plan marks first [] (nodesIds (s :: rest)) (blockSites plan marks doc (s :: rest))
      (do return ⟨none, s⟩ :: (← within (s :: ·) (visitBlock plan false rest)) : Visit (List Node) (List Slot))
      fun final t slots ↦ WovenBlock plan marks first final doc (s :: rest) t (finished slots) := by
  rw [blockSites, if_pos hover]
  apply Part.conv
  case hx =>
    apply Part.beside s.ids
    apply Part.idle (idle_hush s.ids)
    apply Part.bind (Part.within hrest)
    intro t slots _
    apply Part.pure
    rintro final hrest kept
    simpa [finished_cons] using WovenBlock.skip hover kept hrest
  case few =>
    intro j
    simp [nodesIds]
  case same => simp

/-- A statement that is walked into. -/
theorem part_stmt {s : Node} (walked : passesOver plan marks doc s = false)
    (hs : Follows plan marks first s) (hrest : FollowsBlock plan marks first false rest) :
    Part plan marks first [] (nodesIds (s :: rest)) (blockSites plan marks doc (s :: rest))
      (do
        let key ← leaving (s :: rest) (registerUnit plan .statement s none)
        let s' ← within (· :: rest) (visit plan s)
        markNode s
        let before ← countBefore plan key s.place
        return ⟨before, s'⟩ :: (← within (s' :: ·) (visitBlock plan false rest)) :
          Visit (List Node) (List Slot))
      fun final t slots ↦ WovenBlock plan marks first final doc (s :: rest) t (finished slots) := by
  rw [blockSites, if_neg (by simp [walked])]
  cases s with
  | gap =>
    apply Part.conv
    case hx =>
      apply Part.bind (Part.leaving part_registerUnit_gap)
      rintro _ _ ⟨-, rfl, rfl⟩
      apply part_bind_markNode (by simp) (Part.within hs.part)
      rintro _ _ ⟨_, ⟨⟩⟩
      apply Part.bind (part_countBefore none _)
      rintro _ before ⟨-, rfl, -⟩
      apply Part.bind (Part.within hrest)
      intro t₂ slots _
      apply Part.pure
      rintro final hrest ⟨-, counted⟩ - -
      have hfinished : finished (⟨before, .gap⟩ :: slots) = .gap :: finished slots := by
        rw [finished_cons]
        exact (counted _).eq_of_none
      rw [hfinished]
      simpa using WovenBlock.gap hrest
    case few =>
      intro j
      simp [nodesIds]
    case same => simp [startSites, sites]
  | mk i c p fs =>
    apply Part.conv
    case hx =>
      apply Part.bind (Part.leaving (part_registerUnit (.started i)))
      rintro _ key ⟨-, rfl⟩
      apply part_bind_markNode (by simp +contextual) (Part.within hs)
      intro t₁ s' _
      apply Part.bind (part_countBefore key p)
      rintro _ before ⟨-, rfl, -⟩
      apply Part.bind (Part.within hrest)
      intro t₂ slots _
      apply Part.pure
      rintro final hrest ⟨-, counted⟩ ⟨held, hs⟩ -
      simpa [finished_cons] using WovenBlock.stmt walked (held (by simp)) hs hrest (counted _)
    case few =>
      intro j
      simp only [nodesIds, Node.ids, List.count_append, List.count_cons, List.count_nil]
      omega
    case same => simp [startSites]

/-- A statement is passed over or walked with a counter before it. -/
theorem followsBlock_cons {s : Node} (hs : Follows plan marks first s)
    (hrest : FollowsBlock plan marks first false rest) : FollowsBlock plan marks first doc (s :: rest) := by
  unfold FollowsBlock
  rw [visitBlock]
  refine Part.isMarked (fun i hi ↦ by simp [nodesIds, hi]) ?_
  split
  next held => exact part_skip (by simp [passesOver, held]) hrest
  next held =>
    split
    next hex =>
      change Part _ _ _ [] ([] ++ nodesIds (s :: rest)) ([] ++ blockSites plan marks doc (s :: rest)) _ _
      refine Part.bind (Part.leaving (part_noteExcluded s)) ?_
      rintro _ _ ⟨-, rfl⟩
      exact (part_skip (by simp [passesOver, hex]) hrest).imp fun _ _ _ h _ ↦ h
    next hex =>
      split
      next hdoc => exact part_skip (by simp [passesOver, hdoc, Bool.or_assoc]) hrest
      next hdoc => exact part_stmt (by simp_all [passesOver]) hs hrest

theorem followsOperands_nil : FollowsOperands plan marks first [] := by
  intro keys hkeys
  obtain rfl := List.length_eq_zero_iff.1 hkeys
  rw [visitOperands]
  · exact .pure fun _ ↦ .nil
  · simp

theorem followsOperands_cons {v : Node} {vs : List Node} (hv : Follows plan marks first v)
    (hvs : FollowsOperands plan marks first vs) : FollowsOperands plan marks first (v :: vs) := by
  intro keys hkeys
  obtain ⟨key, keys, rfl⟩ := List.exists_cons_of_length_eq_add_one hkeys
  rw [visitOperands]
  apply Part.conv
  case hx =>
    apply Part.bind (Part.within hv.part)
    intro t₁ v' _
    apply Part.bind (part_wrap key v')
    rintro _ w ⟨-, rfl, -⟩
    apply Part.bind (Part.within (hvs keys (by simpa using hkeys)))
    intro t₂ slots _
    apply Part.pure
    rintro final hvs ⟨-, arm⟩ hv
    simpa using WovenOperands.cons hv arm hvs
  case few =>
    intro j
    simp [nodesIds]
  case same => simp [allSites]

theorem followsCases_nil : FollowsCases plan marks first [] := by
  intro keys more arms _ hkeys
  obtain rfl := List.length_eq_zero_iff.1 hkeys
  rw [visitCases]
  · exact .pure fun _ ↦ .nil
  · simp

theorem followsCases_cons {pattern guard : Field}
    (hg : FollowsField plan marks first guard) (hb : FollowsBlock plan marks first false body)
    (hrest : FollowsCases plan marks first rest) :
    FollowsCases plan marks first (.mk i c p [pattern, guard, .many body] :: rest) := by
  intro keys more arms harms hkeys
  obtain ⟨key, keys, rfl⟩ := List.exists_cons_of_length_eq_add_one hkeys
  rw [List.mapM_cons] at harms
  obtain ⟨arm, harm, harms⟩ := except_bind_eq_ok.1 harms
  obtain ⟨rest', hrest', -⟩ := except_bind_eq_ok.1 harms
  obtain ⟨j, q, pattern, guard', body', heq, hbody⟩ := caseArm_ok harm
  cases heq
  rw [List.cons_append, visitCases]
  apply Part.conv
  case hx =>
    apply Part.beside pattern.ids
    apply Part.idle (idle_hush pattern.ids)
    apply Part.bind (Part.within hg)
    intro t₁ g _
    apply Part.bind (Part.within hb)
    rintro t₂ slots ⟨_, hb⟩
    apply Part.bind (part_prepend key (hb.ne_nil hbody))
    rintro _ b' ⟨-, rfl, -⟩
    apply Part.bind (part_mark i)
    rintro _ _ ⟨-, rfl, -⟩
    apply Part.bind (Part.within (hrest keys more rest' hrest' (by simpa using hkeys)))
    intro t₃ cs _
    apply Part.pure
    rintro final hcs - ⟨-, arm⟩ hb hg kept
    simpa using WovenCases.cons kept hg hb arm hcs
  case few =>
    intro j
    simp only [nodesIds, Node.ids, fieldsIds_cons, Field.ids_child, Field.ids_many, List.count_append,
      List.count_cons, List.count_nil]
    omega
  case same => simp [caseSites]

theorem followsHandlers_other {hs : List Node} (h : startsWithHandler hs = false) :
    FollowsHandlers plan marks first hs := by
  have hhs : ∀ i c p type name body rest, hs ≠ .mk i c p [type, name, .many body] :: rest := by
    rintro i c p type name body rest rfl
    simp [startsWithHandler] at h
  unfold FollowsHandlers
  rw [handlerSites, visitHandlers]
  · exact .conv (.beside (nodesIds hs) (.pure fun _ kept ↦ .other h kept)) (by simp) rfl
  · exact hhs
  · exact hhs

theorem followsHandlers_cons {type name : Field}
    (ht : FollowsField plan marks first type) (hb : FollowsBlock plan marks first false body)
    (hrest : FollowsHandlers plan marks first rest) :
    FollowsHandlers plan marks first (.mk i c p [type, name, .many body] :: rest) := by
  unfold FollowsHandlers
  rw [visitHandlers]
  apply Part.conv
  case hx =>
    apply Part.beside name.ids
    apply Part.bind (Part.within ht)
    intro t₁ t _
    apply Part.bind (Part.within hb)
    intro t₂ slots _
    apply Part.bind (part_mark i)
    rintro _ _ ⟨-, rfl, -⟩
    apply Part.bind (Part.within hrest)
    intro t₃ hs _
    apply Part.pure
    rintro final hhs - hb ht kept
    simpa using WovenHandlers.cons kept ht hb hhs
  case few =>
    intro j
    simp only [nodesIds, Node.ids, fieldsIds_cons, Field.ids_many, List.count_append,
      List.count_cons, List.count_nil]
    omega
  case same => simp [handlerSites]

theorem followsField_child (hn : Follows plan marks first n) : FollowsField plan marks first (.child n) := by
  unfold FollowsField
  rw [visitField]
  apply Part.conv
  case hx =>
    apply Part.bind (Part.within hn.part)
    intro t n' _
    apply Part.pure
    rintro final hn
    simpa using WovenField.child hn
  case few => simp
  case same => simp [fieldSites]

theorem followsField_many {ns : List Node} (hb : FollowsBlock plan marks first false ns)
    (ha : FollowsAll plan marks first ns) : FollowsField plan marks first (.many ns) := by
  unfold FollowsField
  rw [visitField, fieldSites]
  split
  next starts =>
    apply Part.conv
    case hx =>
      apply Part.bind (Part.within hb)
      intro t slots _
      apply Part.pure
      rintro final hb
      simpa using WovenField.block starts hb
    case few => simp
    case same => simp
  next starts =>
    apply Part.conv
    case hx =>
      apply Part.bind (Part.within ha)
      intro t ns' _
      apply Part.pure
      rintro final ha
      simpa using WovenField.all (by simpa using starts) ha
    case few => simp
    case same => simp

theorem followsField_atom {f : Field} (h : isAtom f = true) : FollowsField plan marks first f := by
  unfold FollowsField
  cases f with
  | child n => cases h
  | many ns => cases h
  | _ => exact .pure fun _ ↦ .atom rfl

theorem followsFields_nil {names : List String} : FollowsFields plan marks first names [] := by
  unfold FollowsFields
  rw [visitFields, fieldsSites]
  · exact .pure fun _ ↦ .done
  all_goals simp

theorem followsFields_beyond : FollowsFields plan marks first [] fs := by
  unfold FollowsFields
  rw [visitFields, fieldsSites]
  · exact .conv (.beside (fieldsIds fs) (.pure fun _ kept ↦ .beyond kept)) (by simp) rfl
  all_goals simp

theorem followsFields_cons {name : String} {names : List String} {f : Field}
    (hf : FollowsField plan marks first f) (hfs : FollowsFields plan marks first names fs) :
    FollowsFields plan marks first (name :: names) (f :: fs) := by
  unfold FollowsFields
  rw [visitFields, fieldsSites]
  cases hover : isSkippedField name with
  | true =>
    apply Part.conv
    case hx =>
      apply Part.beside f.ids
      apply Part.bind (Part.within hfs)
      intro t fs' _
      apply Part.pure
      rintro final hfs kept
      simpa using WovenFields.skipped hover kept hfs
    case few =>
      intro j
      rw [fieldsIds_cons]
      simp
    case same => simp
  | false =>
    apply Part.conv
    case hx =>
      apply Part.bind (Part.within hf)
      intro t₁ f' _
      apply Part.bind (Part.within hfs)
      intro t₂ fs' _
      apply Part.pure
      rintro final hfs hf
      simpa using WovenFields.walked hover hf hfs
    case few =>
      intro j
      rw [fieldsIds_cons]
      simp
    case same => simp

/-! ## Trees -/

mutual
/-- The walk into any node does what its sites say. -/
theorem follows : ∀ n : Node, Follows plan marks first n
  | .gap => trivial
  | .mk i c p fs => by
    cases hrule : hasRule c fs with
    | false => exact follows_plain hrule (followsFields c.fieldNames fs)
    | true =>
      unfold hasRule at hrule
      split at hrule
      · exact follows_module (followsBlock true _)
      · exact follows_classDef (followsAll _) (followsAll _) (followsAll _) (followsBlock true _)
      · exact follows_functionDef (followsAll _) (follows _) (followsBlock true _)
      · exact follows_lambda (follows _) (follows _)
      · exact follows_ifStmt (followsChain i p _)
      · exact follows_ifExp (follows _) (follows _) (follows _)
      · exact follows_boolOp (followsOperands _)
      · exact follows_matchStmt (follows _) (followsCases _)
      · exact follows_whileLoop (follows _) (followsBlock false _) (followsBlock false _)
      · exact follows_forLoop (follows _) (follows _) (followsBlock false _) (followsBlock false _)
      · exact follows_tryStmt (followsBlock false _) (followsHandlers _) (followsBlock false _)
          (followsBlock false _)
      · cases hrule
termination_by n => sizeOf n

theorem followsChain (i : NodeId) (p : Place) (fs : List Field) : FollowsChain plan marks first i p fs := by
  cases hlink : isLink (.mk i .ifStmt p fs) with
  | false => exact followsChain_other hlink
  | true =>
    unfold isLink at hlink
    split at hlink
    next test body orelse heq =>
      cases heq
      cases hlast : hasNextLink plan marks orelse with
      | false => exact followsChain_last hlast (follows test) (followsBlock false body) (followsBlock false orelse)
      | true =>
        obtain ⟨n, rfl, hnext⟩ := hasNextLink_eq_true hlast
        obtain ⟨j, q, test', body', orelse', rfl⟩ := continues_link hnext
        exact followsChain_link hnext (follows test) (followsBlock false body) (followsChain j q _)
    next => cases hlink
termination_by sizeOf fs

theorem followsBlock (doc : Bool) : ∀ ns : List Node, FollowsBlock plan marks first doc ns
  | [] => followsBlock_nil
  | s :: rest => followsBlock_cons (follows s) (followsBlock false rest)
termination_by ns => sizeOf ns

theorem followsAll : ∀ ns : List Node, FollowsAll plan marks first ns
  | [] => followsAll_nil
  | n :: ns => followsAll_cons (follows n) (followsAll ns)
termination_by ns => sizeOf ns

theorem followsOperands : ∀ vs : List Node, FollowsOperands plan marks first vs
  | [] => followsOperands_nil
  | v :: vs => followsOperands_cons (follows v) (followsOperands vs)
termination_by ns => sizeOf ns

theorem followsCases : ∀ cs : List Node, FollowsCases plan marks first cs
  | [] => followsCases_nil
  | n :: rest => by
    intro keys more arms harms hkeys
    rw [List.mapM_cons] at harms
    obtain ⟨arm, harm, hrest⟩ := except_bind_eq_ok.1 harms
    obtain ⟨i, p, pattern, guard, body, rfl, -⟩ := caseArm_ok harm
    rw [← List.mapM_cons] at harms
    exact followsCases_cons (followsField guard) (followsBlock false body) (followsCases rest) keys more arms
      harms hkeys
termination_by ns => sizeOf ns

theorem followsHandlers (hs : List Node) : FollowsHandlers plan marks first hs := by
  cases hstarts : startsWithHandler hs with
  | false => exact followsHandlers_other hstarts
  | true =>
    unfold startsWithHandler at hstarts
    split at hstarts
    next i c p type name body rest =>
      exact followsHandlers_cons (followsField type) (followsBlock false body) (followsHandlers rest)
    next => cases hstarts
termination_by sizeOf hs

theorem followsFields : ∀ (names : List String) (fs : List Field), FollowsFields plan marks first names fs
  | _, [] => followsFields_nil
  | [], _ => followsFields_beyond
  | name :: names, f :: fs => followsFields_cons (followsField f) (followsFields names fs)
termination_by _ fs => sizeOf fs

theorem followsField : ∀ f : Field, FollowsField plan marks first f
  | .child n => followsField_child (follows n)
  | .many ns => followsField_many (followsBlock false ns) (followsAll ns)
  | .none | .text _ | .number _ | .constant _ | .names _ => followsField_atom rfl
termination_by f => sizeOf f
end

/-! ## Whole passes -/

/-- The nodes of a tree are told apart by identities below `next`. -/
structure Identified (next : NodeId) (n : Node) : Prop where
  nodup : n.ids.Nodup
  below : ∀ i ∈ n.ids, i < next

/-- What offering all sites of a tree leads to. -/
def roster (plan : Plan) (marks : Marks) (tree : Node) : Enrolment :=
  enrolAll plan { filename := plan.filename } (sites plan marks tree)

/-- A pass that is not stopped is a check and a walk that are not stopped. -/
theorem instrument_eq_ok {i : Instrumented} : instrument plan marks next tree = .ok i ↔
      checkPlaces plan marks tree = .ok () ∧
        ∃ n s, Yields (visit plan tree) (start plan marks next) n s ∧ i = finish n s := by
  unfold instrument
  constructor
  · intro h
    split at h
    next => cases h
    next hcheck =>
      split at h
      next => cases h
      next n s hrun => exact ⟨hcheck, n, s, hrun, (Except.ok.inj h).symm⟩
  · intro h
    obtain ⟨hcheck, n, s, hrun, rfl⟩ := h
    have hrun : (visit plan tree).run (start plan marks next) = (.ok n, s) := hrun
    rw [hcheck]
    dsimp only
    rw [hrun]

theorem ready_start (htree : Identified next tree) : Ready marks (start plan marks next) tree.ids :=
  ⟨htree.nodup, htree.below, fun _ _ ↦ rfl⟩

/-- Decision points that a pass offers have arms. -/
theorem armed_of_instrument {i : Instrumented} (htree : Identified next tree)
    (h : instrument plan marks next tree = .ok i) (hcounts : plan.counts .branch = true) :
    ∀ site ∈ sites plan marks tree, site.Armed := by
  obtain ⟨-, n, s, hrun, -⟩ := instrument_eq_ok.1 h
  obtain ⟨tags, hw, -⟩ := (follows tree).part (start plan marks next) n s (Nat.le_refl _) (ready_start htree) hrun
  exact hw.armed hcounts

/-- A walk that is not stopped weaves the tree as its roster says. -/
theorem visit_spec {s : State} (htree : Identified next tree)
    (hrun : Yields (visit plan tree) (start plan marks next) n s) :
    Woven plan marks next s.marks tree (roster plan marks tree).tags n ∧ s.record = (roster plan marks tree).record ∧
      refusals s.notes = (roster plan marks tree).refused := by
  obtain ⟨tags, hw, hwoven⟩ := (follows tree).part (start plan marks next) n s (Nat.le_refl _) (ready_start htree) hrun
  rw [← hw.tagged] at hwoven
  refine ⟨hwoven s.marks .refl, hw.record.symm, ?_⟩
  rw [hw.refused]
  simp [start, refusals, roster]

/-- A pass that is not stopped weaves the tree as its roster says. -/
theorem instrument_spec {i : Instrumented} (htree : Identified next tree)
    (h : instrument plan marks next tree = .ok i) :
    ∃ n, Woven plan marks next i.marks tree (roster plan marks tree).tags n ∧ i.tree = n.fillPlaces .start ∧
      i.record = (roster plan marks tree).record ∧ refusals i.notes = (roster plan marks tree).refused := by
  obtain ⟨-, n, s, hrun, rfl⟩ := instrument_eq_ok.1 h
  obtain ⟨hwoven, hrecord, hrefused⟩ := visit_spec htree hrun
  refine ⟨n, hwoven, rfl, hrecord, ?_⟩
  change refusals (s.notes ++ [_]) = _
  simp [← hrefused, refusals]

end Coverage.Pass
