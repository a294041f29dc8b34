import Coverage.Proofs.Pass.Walk
import Coverage.Proofs.Projection.Alike

/-!
# The walk of two passes

Both passes take the same walk through a tree in which no place is missing: what is marked, what is excluded
and what the arms of a construct are does not depend on the kinds that are counted. There is one lemma for each
kind of node, which takes what is known of its parts, and a recursion over trees that puts them together.
-/

namespace Coverage.Pass

open Syntax

variable {body orelse rest : List Node} {fs : List Field} {n s test : Node} {f : Field} {doc : Bool}

variable {plan : Plan} {first : NodeId} {kept : Kind → Bool} {ε ε' : Type}

/-! ## What a walk asks -/

/-- A node that is located carries all its numbers. -/
theorem span?_of_locate {span : Span} (h : locate n = .ok span) : n.place.span?.isSome = true := by
  cases n with
  | gap => cases h
  | mk i c p fs =>
    cases hspan : p.span? with
    | none => simp [locate, hspan] at h
    | some _ => simp [Node.place, hspan]

theorem ArmKeys.keyAt {keys keys' : List (Option Key)} (h : ArmKeys kept keys keys') (a : Nat) :
    Projected kept .branch (Pass.keyAt keys a) (Pass.keyAt keys' a) := by
  induction h generalizing a with
  | nil => exact .refused
  | cons hkey _ ih =>
    cases a with
    | zero => exact hkey
    | succ a => exact ih a

theorem twin_fork (hall : ∀ kind, plan.counts kind = true) (construct : Construct) (n : Node)
    (arms : Except Unlocated (List Span)) :
    Twin first kept (do registerGroup plan construct n (← located arms))
      (do registerGroup { plan with counts := kept } construct n (← located arms)) (ArmKeys kept) := by
  refine (Twin.located arms).bind ?_
  rintro spans _ ⟨-, rfl⟩
  exact twin_registerGroup hall construct n spans

theorem twin_firstIsDocstring (body : List Node) :
    Twin first kept (firstIsDocstring body) (firstIsDocstring body) fun doc doc' ↦
      doc = doc' ∧ ∃ s rest, body = s :: rest ∧ doc = s.isDocstring := by
  cases body with
  | nil => exact fun _ _ _ _ _ h ↦ absurd h not_yields_throw
  | cons s rest => exact .pure ⟨rfl, s, rest, rfl, rfl⟩

theorem twin_lastIsDefault (cases : List Node) :
    Twin first kept (lastIsDefault cases) (lastIsDefault cases) fun isDefault isDefault' ↦ isDefault = isDefault' := by
  cases hlast : cases.getLast? with
  | none =>
    simp only [lastIsDefault, hlast]
    exact fun _ _ _ _ _ h ↦ absurd h not_yields_throw
  | some c =>
    simp only [lastIsDefault, hlast]
    exact .pure rfl

/-! ## Parts of a walk -/

section Parts

variable (plan : Plan) (first : NodeId) (kept : Kind → Bool)

/-- The node is one of the tree and no place is missing in it. -/
structure Whole (ids : List NodeId) (placed : Bool) : Prop where
  old : Before first ids
  placed : placed = true

def TwinNode (n : Node) : Prop :=
  Whole first n.ids n.placed →
    Twin first kept (visit plan n) (visit { plan with counts := kept } n) (Alike first kept n)

def TwinAll (ns : List Node) : Prop :=
  Whole first (nodesIds ns) (nodesPlaced ns) →
    Twin first kept (visitAll plan ns) (visitAll { plan with counts := kept } ns) (AlikeNodes first kept)

def TwinBlock (doc : Bool) (ns : List Node) : Prop :=
  Whole first (nodesIds ns) (nodesPlaced ns) →
    Twin first kept (visitBlock plan doc ns) (visitBlock { plan with counts := kept } doc ns)
      (AlikeSlots first kept doc ns)

def TwinField (f : Field) : Prop :=
  Whole first f.ids f.placed →
    Twin first kept (visitField plan f) (visitField { plan with counts := kept } f) (AlikeField first kept)

def TwinFields (names : List String) (fs : List Field) : Prop :=
  Whole first (fieldsIds fs) (fieldsPlaced fs) →
    Twin first kept (visitFields plan names fs) (visitFields { plan with counts := kept } names fs)
      (List.Forall₂ (AlikeField first kept))

def TwinOperands (vs : List Node) : Prop :=
  Whole first (nodesIds vs) (nodesPlaced vs) → ∀ keys keys', ArmKeys kept keys keys' →
    Twin first kept (visitOperands plan keys vs) (visitOperands { plan with counts := kept } keys' vs)
      fun slots slots' ↦ LevelNodes first kept (slots.map (·.2)) (slots'.map (·.2))

def TwinCases (cs : List Node) : Prop :=
  Whole first (nodesIds cs) (nodesPlaced cs) → ∀ keys keys', ArmKeys kept keys keys' →
    Twin first kept (visitCases plan keys cs) (visitCases { plan with counts := kept } keys' cs)
      (LevelNodes first kept)

def TwinHandlers (hs : List Node) : Prop :=
  Whole first (nodesIds hs) (nodesPlaced hs) →
    Twin first kept (visitHandlers plan hs) (visitHandlers { plan with counts := kept } hs) (LevelNodes first kept)

def TwinChain (i : NodeId) (p : Place) (fs : List Field) : Prop :=
  Whole first (Node.mk i .ifStmt p fs).ids (Node.mk i .ifStmt p fs).placed → ∀ keys keys', ArmKeys kept keys keys' →
    Twin first kept (visitChain plan i p keys fs) (visitChain { plan with counts := kept } i p keys' fs)
      (Alike first kept (.mk i .ifStmt p fs))

end Parts

namespace Whole

variable {i : NodeId} {c : NodeClass} {p : Place}

theorem mk_iff : Whole first (Node.mk i c p fs).ids (Node.mk i c p fs).placed ↔
    (i < first ∧ (c.role.placeable = true → p.span?.isSome = true)) ∧ Whole first (fieldsIds fs) (fieldsPlaced fs) := by
  constructor
  · rintro ⟨old, hplaced⟩
    rw [Node.ids, before_cons] at old
    rw [placed_mk] at hplaced
    exact ⟨⟨old.1, hplaced.1⟩, old.2, hplaced.2⟩
  · rintro ⟨⟨hi, hp⟩, old, hplaced⟩
    exact ⟨by rw [Node.ids, before_cons]; exact ⟨hi, old⟩, placed_mk.2 ⟨hp, hplaced⟩⟩

theorem fields_cons : Whole first (fieldsIds (f :: fs)) (fieldsPlaced (f :: fs)) ↔
    Whole first f.ids f.placed ∧ Whole first (fieldsIds fs) (fieldsPlaced fs) := by
  constructor
  · rintro ⟨old, hplaced⟩
    rw [fieldsIds_cons, before_append] at old
    rw [fieldsPlaced_cons] at hplaced
    exact ⟨⟨old.1, hplaced.1⟩, old.2, hplaced.2⟩
  · rintro ⟨⟨oldf, hf⟩, old, hplaced⟩
    exact ⟨by rw [fieldsIds_cons, before_append]; exact ⟨oldf, old⟩, fieldsPlaced_cons.2 ⟨hf, hplaced⟩⟩

theorem child : Whole first (Field.child n).ids (Field.child n).placed ↔ Whole first n.ids n.placed := by
  rw [Field.ids_child, placed_child]

theorem many {ns : List Node} : Whole first (Field.many ns).ids (Field.many ns).placed ↔
    Whole first (nodesIds ns) (nodesPlaced ns) := by
  rw [Field.ids_many, placed_many]

theorem nodes_cons {ns : List Node} : Whole first (nodesIds (n :: ns)) (nodesPlaced (n :: ns)) ↔
    Whole first n.ids n.placed ∧ Whole first (nodesIds ns) (nodesPlaced ns) := by
  constructor
  · rintro ⟨old, hplaced⟩
    rw [nodesIds, before_append] at old
    rw [nodesPlaced_cons] at hplaced
    exact ⟨⟨old.1, hplaced.1⟩, old.2, hplaced.2⟩
  · rintro ⟨⟨oldn, hn⟩, old, hplaced⟩
    exact ⟨by rw [nodesIds, before_append]; exact ⟨oldn, old⟩, nodesPlaced_cons.2 ⟨hn, hplaced⟩⟩

end Whole

/-! ## Nodes -/

/-- Both passes pass by a marked node; of the others only the walk itself has to be looked at. -/
theorem twin_mk {i : NodeId} {c : NodeClass} {p : Place} {rest rest' : Visit Node Node}
    (hwhole : Whole first (Node.mk i c p fs).ids (Node.mk i c p fs).placed)
    (hvisit : visit plan (.mk i c p fs) = (do if ← isMarked (.mk i c p fs) then return .mk i c p fs
                                              rest)) (hvisit' : visit { plan with counts := kept } (.mk i c p fs) =
      (do if ← isMarked (.mk i c p fs) then return .mk i c p fs
          rest')) (hrest : Twin first kept rest rest' (Alike first kept (.mk i c p fs))) :
    Twin first kept (visit plan (.mk i c p fs)) (visit { plan with counts := kept } (.mk i c p fs))
      (Alike first kept (.mk i c p fs)) := by
  rw [hvisit, hvisit']
  refine Twin.isMarked hwhole.old fun held ↦ ?_
  cases held with
  | true =>
    rw [if_pos rfl, if_pos rfl]
    exact .pure (alike_self hwhole.old hwhole.placed)
  | false =>
    rw [if_neg Bool.false_ne_true, if_neg Bool.false_ne_true]
    exact hrest

section Nodes

variable {i : NodeId} {p : Place}

theorem twin_module {ignores : Field} (hb : TwinBlock plan first kept true body) :
    TwinNode plan first kept (.mk i .module p [.many body, ignores]) := by
  intro hwhole
  refine twin_mk hwhole (by rw [visit]) (by rw [visit]) ?_
  simp only [Whole.mk_iff, Whole.fields_cons, Whole.many] at hwhole
  obtain ⟨⟨hi, hp⟩, hbody, hignores, -⟩ := hwhole
  refine (hb hbody).within.bind fun slots slots' hslots ↦ ?_
  refine (twin_mark i).bind fun _ _ _ ↦ .pure (.of_fields hi hp ?_)
  exact .cons hslots.block.nodes.field (.cons (alikeField_self hignores.old hignores.placed) .nil)

theorem twin_classDef {name : Field} {bases keywords decorators : List Node}
    (hds : TwinAll plan first kept decorators) (hbs : TwinAll plan first kept bases)
    (hks : TwinAll plan first kept keywords) (hb : TwinBlock plan first kept true body) :
    TwinNode plan first kept
      (.mk i .classDef p [name, .many bases, .many keywords, .many body, .many decorators]) := by
  intro hwhole
  refine twin_mk hwhole (by rw [visit]) (by rw [visit]) ?_
  simp only [Whole.mk_iff, Whole.fields_cons, Whole.many] at hwhole
  obtain ⟨⟨hi, hp⟩, hname, hbases, hkeywords, hbody, hdecorators, -⟩ := hwhole
  refine (hds hdecorators).within.bind fun ds ds' hds ↦ ?_
  refine (hbs hbases).within.bind fun bs bs' hbs ↦ ?_
  refine (hks hkeywords).within.bind fun ks ks' hks ↦ ?_
  refine (hb hbody).within.bind fun slots slots' hslots ↦ .pure (.of_fields hi hp ?_)
  exact .cons (alikeField_self hname.old hname.placed) (.cons hbs.field (.cons hks.field
    (.cons hslots.block.nodes.field (.cons hds.field .nil))))

theorem twin_functionDef (hall : ∀ kind, plan.counts kind = true) {async : Bool} {name : String} {args : Node}
    {decorators : List Node} {returns comment : Field} (hds : TwinAll plan first kept decorators)
    (ha : TwinNode plan first kept args) (hb : TwinBlock plan first kept true body) :
    TwinNode plan first kept (.mk i (.functionDef async) p
      [.text name, .child args, .many body, .many decorators, returns, comment]) := by
  intro hwhole
  refine twin_mk hwhole (by rw [visit]) (by rw [visit]) ?_
  simp only [Whole.mk_iff, Whole.fields_cons, Whole.many, Whole.child] at hwhole
  obtain ⟨⟨hi, hp⟩, hname, hargs, hbody, hdecorators, hreturns, hcomment, -⟩ := hwhole
  refine (twin_registerUnit hall _ _ _).leaving.bind ?_
  rintro k k' ⟨-, hk⟩
  refine (hds hdecorators).within.bind fun ds ds' hds ↦ ?_
  refine (ha hargs).within.bind fun a a' ha ↦ ?_
  refine (twin_firstIsDocstring body).leaving.bind ?_
  rintro doc _ ⟨rfl, d, rest, hhead, rfl⟩
  refine (hb hbody).within.bind fun slots slots' hslots ↦ ?_
  have hdoc (h : d.isDocstring = true) := hslots.docstring rfl d rest hhead h
  refine (twin_countEntry hk hslots.block fun h ↦ ?_).bind fun b b' hb ↦ .pure (.of_level hi rfl (hp rfl) ?_)
  · obtain ⟨r, r', hr, hr', hrest⟩ := hdoc h
    exact ⟨d, r, r', hr, hr', hrest⟩
  · exact .cons (alikeField_self hname.old hname.placed).level (.cons ha.field.level (.cons hb.field
      (.cons hds.field.level (.cons (alikeField_self hreturns.old hreturns.placed).level
        (.cons (alikeField_self hcomment.old hcomment.placed).level .nil)))))

theorem twin_lambda (hall : ∀ kind, plan.counts kind = true) {args body : Node} (ha : TwinNode plan first kept args)
    (hb : TwinNode plan first kept body) : TwinNode plan first kept (.mk i .lambda p [.child args, .child body]) := by
  intro hwhole
  refine twin_mk hwhole (by rw [visit]) (by rw [visit]) ?_
  simp only [Whole.mk_iff, Whole.fields_cons, Whole.child] at hwhole
  obtain ⟨⟨hi, hp⟩, hargs, hbody, -⟩ := hwhole
  refine (twin_registerUnit hall _ _ _).leaving.bind ?_
  rintro k k' ⟨-, hk⟩
  refine (ha hargs).within.bind fun a a' ha ↦ ?_
  refine (hb hbody).within.bind fun b b' hb ↦ ?_
  refine (twin_wrap hk hb).bind fun w w' hw ↦ ?_
  refine (twin_mark i).bind fun _ _ _ ↦ .pure (.of_level hi rfl (hp rfl) ?_)
  exact .cons ha.field.level (.cons hw.field .nil)

theorem twin_ifExp (hall : ∀ kind, plan.counts kind = true) {body orelse : Node} (ht : TwinNode plan first kept test)
    (hb : TwinNode plan first kept body) (ho : TwinNode plan first kept orelse) :
    TwinNode plan first kept (.mk i .ifExp p [.child test, .child body, .child orelse]) := by
  intro hwhole
  refine twin_mk hwhole (by rw [visit]) (by rw [visit]) ?_
  simp only [Whole.mk_iff, Whole.fields_cons, Whole.child] at hwhole
  obtain ⟨⟨hi, hp⟩, htest, hbody, horelse, -⟩ := hwhole
  have hgroup : Twin first kept
      (do let first ← located (locate body)
          let second ← located (locate orelse)
          registerGroup plan .ternary (.mk i .ifExp p [.child test, .child body, .child orelse]) [first, second])
      (do let first ← located (locate body)
          let second ← located (locate orelse)
          registerGroup { plan with counts := kept } .ternary
            (.mk i .ifExp p [.child test, .child body, .child orelse]) [first, second]) (ArmKeys kept) := by
    refine (Twin.located _).bind ?_
    rintro first _ ⟨-, rfl⟩
    refine (Twin.located _).bind ?_
    rintro second _ ⟨-, rfl⟩
    exact twin_registerGroup hall _ _ _
  refine hgroup.leaving.bind fun keys keys' hkeys ↦ ?_
  refine (ht htest).within.bind fun t t' ht ↦ ?_
  refine (hb hbody).within.bind fun b b' hb ↦ ?_
  refine (twin_wrap (hkeys.keyAt 0) hb).bind fun v v' hv ↦ ?_
  refine (ho horelse).within.bind fun o o' ho ↦ ?_
  refine (twin_wrap (hkeys.keyAt 1) ho).bind fun w w' hw ↦ ?_
  refine (twin_mark i).bind fun _ _ _ ↦ .pure (.of_level hi rfl (hp rfl) ?_)
  exact .cons ht.field.level (.cons hv.field (.cons hw.field .nil))

theorem twin_boolOp (hall : ∀ kind, plan.counts kind = true) {op : Field} {values : List Node}
    (hvs : TwinOperands plan first kept values) : TwinNode plan first kept (.mk i .boolOp p [op, .many values]) := by
  intro hwhole
  refine twin_mk hwhole (by rw [visit]) (by rw [visit]) ?_
  simp only [Whole.mk_iff, Whole.fields_cons, Whole.many] at hwhole
  obtain ⟨⟨hi, hp⟩, hop, hvalues, -⟩ := hwhole
  refine (twin_fork hall _ _ _).leaving.bind fun keys keys' hkeys ↦ ?_
  refine (hvs hvalues keys keys' hkeys).within.bind fun slots slots' hslots ↦ ?_
  refine (twin_mark i).bind fun _ _ _ ↦ .pure (.of_level hi rfl (hp rfl) ?_)
  exact .cons (alikeField_self hop.old hop.placed).level (.cons hslots.field .nil)

theorem twin_matchStmt (hall : ∀ kind, plan.counts kind = true) {subject : Node} {cases : List Node}
    (hs : TwinNode plan first kept subject) (hcs : TwinCases plan first kept cases) :
    TwinNode plan first kept (.mk i .matchStmt p [.child subject, .many cases]) := by
  intro hwhole
  refine twin_mk hwhole (by rw [visit]) (by rw [visit]) ?_
  simp only [Whole.mk_iff, Whole.fields_cons, Whole.many, Whole.child] at hwhole
  obtain ⟨⟨hi, hp⟩, hsubject, hcases, -⟩ := hwhole
  refine (twin_lastIsDefault cases).leaving.bind ?_
  rintro hasDefault _ rfl
  refine (twin_fork hall _ _ _).leaving.bind fun keys keys' hkeys ↦ ?_
  refine (hs hsubject).within.bind fun s s' hs ↦ ?_
  refine (hcs hcases keys keys' hkeys).within.bind fun cs cs' hcs ↦ ?_
  have hnode {cs cs' : List Node} (hcs : LevelNodes first kept cs cs') :
      Alike first kept (.mk i .matchStmt p [.child subject, .many cases]) (.mk i .matchStmt p [.child s, .many cs])
        (.mk i .matchStmt p [.child s', .many cs']) :=
    .of_level hi rfl (hp rfl) (.cons hs.field.level (.cons hcs.field .nil))
  cases hasDefault with
  | true => exact .pure (hnode hcs)
  | false => exact (twin_addFallback (hkeys.keyAt cases.length) hs hcs).bind fun cs cs' hcs ↦ .pure (hnode hcs)

theorem twin_whileLoop (hall : ∀ kind, plan.counts kind = true) (ht : TwinNode plan first kept test)
    (hb : TwinBlock plan first kept false body) (ho : TwinBlock plan first kept false orelse) :
    TwinNode plan first kept (.mk i .whileLoop p [.child test, .many body, .many orelse]) := by
  intro hwhole
  refine twin_mk hwhole (by rw [visit]) (by rw [visit]) ?_
  simp only [Whole.mk_iff, Whole.fields_cons, Whole.many, Whole.child] at hwhole
  obtain ⟨⟨hi, hp⟩, htest, hbody, horelse, -⟩ := hwhole
  refine (twin_fork hall _ _ _).leaving.bind fun keys keys' hkeys ↦ ?_
  refine (ht htest).within.bind fun t t' ht ↦ ?_
  refine (hb hbody).within.bind fun slots slots' hslots ↦ ?_
  refine (twin_prepend (hkeys.keyAt 0) hslots.block).bind fun b b' hb ↦ ?_
  refine (ho horelse).within.bind fun rest rest' hrest ↦ ?_
  rw [ht.place, ht.place']
  refine (twin_elseClause (hkeys.keyAt 1) test.place hrest).bind fun o o' ho ↦ .pure (.of_level hi rfl (hp rfl) ?_)
  exact .cons ht.field.level (.cons hb.field (.cons ho.field .nil))

theorem twin_forLoop (hall : ∀ kind, plan.counts kind = true) {async : Bool} {target iter : Node} {comment : Field}
    (ht : TwinNode plan first kept target) (hs : TwinNode plan first kept iter)
    (hb : TwinBlock plan first kept false body) (ho : TwinBlock plan first kept false orelse) :
    TwinNode plan first kept (.mk i (.forLoop async) p
      [.child target, .child iter, .many body, .many orelse, comment]) := by
  intro hwhole
  refine twin_mk hwhole (by rw [visit]) (by rw [visit]) ?_
  simp only [Whole.mk_iff, Whole.fields_cons, Whole.many, Whole.child] at hwhole
  obtain ⟨⟨hi, hp⟩, htarget, hiter, hbody, horelse, hcomment, -⟩ := hwhole
  refine (twin_fork hall _ _ _).leaving.bind fun keys keys' hkeys ↦ ?_
  refine (ht htarget).within.bind fun t t' ht ↦ ?_
  refine (hs hiter).within.bind fun s s' hs ↦ ?_
  refine (hb hbody).within.bind fun slots slots' hslots ↦ ?_
  refine (twin_prepend (hkeys.keyAt 0) hslots.block).bind fun b b' hb ↦ ?_
  refine (ho horelse).within.bind fun rest rest' hrest ↦ ?_
  rw [hs.place, hs.place']
  refine (twin_elseClause (hkeys.keyAt 1) iter.place hrest).bind fun o o' ho ↦ .pure (.of_level hi rfl (hp rfl) ?_)
  exact .cons ht.field.level (.cons hs.field.level (.cons hb.field (.cons ho.field
    (.cons (alikeField_self hcomment.old hcomment.placed).level .nil))))

theorem twin_tryStmt (hall : ∀ kind, plan.counts kind = true) {star : Bool} {handlers finalbody : List Node}
    (hb : TwinBlock plan first kept false body) (hh : TwinHandlers plan first kept handlers)
    (ho : TwinBlock plan first kept false orelse) (hf : TwinBlock plan first kept false finalbody) :
    TwinNode plan first kept (.mk i (.tryStmt star) p
      [.many body, .many handlers, .many orelse, .many finalbody]) := by
  intro hwhole
  refine twin_mk hwhole (by rw [visit]) (by rw [visit]) ?_
  simp only [Whole.mk_iff, Whole.fields_cons, Whole.many] at hwhole
  obtain ⟨⟨hi, hp⟩, hbody, hhandlers, horelse, hfinalbody, -⟩ := hwhole
  refine (twin_fork hall _ _ _).leaving.bind fun keys keys' hkeys ↦ ?_
  refine (hb hbody).within.bind fun slots slots' hslots ↦ ?_
  refine (hh hhandlers).within.bind fun h h' hh ↦ ?_
  refine (ho horelse).within.bind fun o o' ho ↦ ?_
  refine (hf hfinalbody).within.bind fun f f' hf ↦ ?_
  refine (twin_guardBody hkeys hslots.block).bind fun b b' hb ↦ .pure (.of_level hi rfl (hp rfl) ?_)
  exact .cons hb.field (.cons hh.field (.cons ho.block.nodes.field.level (.cons hf.block.nodes.field.level .nil)))

/-- A node for which there is no rule is walked field by field. -/
theorem twin_plain {c : NodeClass} (noRule : hasRule c fs = false) (h : TwinFields plan first kept c.fieldNames fs) :
    TwinNode plan first kept (.mk i c p fs) := by
  intro hwhole
  refine twin_mk hwhole (visit_of_not_hasRule noRule p) (visit_of_not_hasRule noRule p) ?_
  rw [Whole.mk_iff] at hwhole
  obtain ⟨⟨hi, hp⟩, hfs⟩ := hwhole
  exact (h hfs).within.bind fun gs gs' hgs ↦ .pure (.of_fields hi hp hgs)

/-! ## Chains -/

/-- The arms of a chain do not depend on the kinds that are counted. -/
theorem chainArms_counts (marks : Marks) (n : Node) :
    chainArms { plan with counts := kept } marks n = chainArms plan marks n := by
  have hcontinues (n : Node) : continues { plan with counts := kept } marks n = continues plan marks n := rfl
  fun_induction chainArms plan marks n with
  | case1 => simp [chainArms]
  | case2 i p test body n hc ih => simp [chainArms, hcontinues, hc, ih]
  | case3 i p test body n hc => simp [chainArms, hcontinues, hc]
  | case4 i p test body orelse hnil hone => simp_all [chainArms]
  | case5 => simp_all [chainArms]

/-- The links of a chain are the same for both passes, which see the same marks on it. -/
theorem twin_ifStmt (hall : ∀ kind, plan.counts kind = true) (h : TwinChain plan first kept i p fs) :
    TwinNode plan first kept (.mk i .ifStmt p fs) := by
  intro hwhole
  refine twin_mk hwhole (by rw [visit]) (by rw [visit]) (Twin.get fun s s' hs ↦ ?_)
  have harms : chainArms { plan with counts := kept } s'.marks (.mk i .ifStmt p fs) =
      chainArms plan s.marks (.mk i .ifStmt p fs) := by
    rw [chainArms_counts]
    refine (chainArms_congr _ fun j hj ↦ ?_).symm
    exact hs.marks j (hwhole.old j hj)
  dsimp only
  rw [harms]
  exact (twin_fork hall _ _ _).leaving.bind fun keys keys' hkeys ↦ h hwhole keys keys' hkeys

/-- Both passes see the same links. -/
theorem twinChain_cons (ht : TwinNode plan first kept test) (hb : TwinBlock plan first kept false body)
    (ho : TwinBlock plan first kept false orelse)
    (hnext : ∀ j q fs, orelse = [.mk j .ifStmt q fs] → TwinChain plan first kept j q fs) :
    TwinChain plan first kept i p [.child test, .many body, .many orelse] := by
  intro hwhole keys keys' hkeys
  simp only [Whole.mk_iff, Whole.fields_cons, Whole.many, Whole.child] at hwhole
  obtain ⟨⟨hi, hp⟩, htest, hbody, horelse, -⟩ := hwhole
  rw [visitChain, visitChain]
  refine (ht htest).within.bind fun t t' ht ↦ ?_
  refine (hb hbody).within.bind fun slots slots' hslots ↦ ?_
  refine (twin_prepend (hkeys.keyAt 0) hslots.block).bind fun b b' hb ↦ ?_
  refine (twin_mark i).bind fun _ _ _ ↦ ?_
  have hlast (hkeys : ArmKeys kept keys keys') : Twin first kept
      (do let slots ← within (fun o ↦ .mk i .ifStmt p [.child t, .many b, .many o]) (visitBlock plan false orelse)
          return .mk i .ifStmt p [.child t, .many b, .many (← elseClause plan (keyAt keys 1) t.place slots)] :
            Visit Node Node)
      (do let slots ← within (fun o ↦ .mk i .ifStmt p [.child t', .many b', .many o])
            (visitBlock { plan with counts := kept } false orelse)
          return .mk i .ifStmt p [.child t', .many b',
            .many (← elseClause { plan with counts := kept } (keyAt keys' 1) t'.place slots)] : Visit Node Node)
      (Alike first kept (.mk i .ifStmt p [.child test, .many body, .many orelse])) := by
    refine (ho horelse).within.bind fun rest rest' hrest ↦ ?_
    rw [ht.place, ht.place']
    refine (twin_elseClause (hkeys.keyAt 1) test.place hrest).bind fun o o' ho ↦ .pure (.of_level hi rfl (hp rfl) ?_)
    exact .cons ht.field.level (.cons hb.field (.cons ho.field .nil))
  obtain _ | @⟨k₀, k₀', _, _, hk₀, _ | @⟨k₁, k₁', _, _, hk₁, _ | @⟨k₂, k₂', keys, keys', hk₂, hrest⟩⟩⟩ := hkeys
  · exact hlast .nil
  · exact hlast (.cons hk₀ .nil)
  · exact hlast (.cons hk₀ (.cons hk₁ .nil))
  · split
    next j q fs heq =>
      cases heq
      have hlink : Whole first (Node.mk j .ifStmt q fs).ids (Node.mk j .ifStmt q fs).placed :=
        (Whole.nodes_cons.1 horelse).1
      refine (hnext j q fs rfl hlink _ _ (.cons hk₁ (.cons hk₂ hrest))).within.bind fun o o' ho ↦ ?_
      refine .pure (.of_level hi rfl (hp rfl) ?_)
      exact .cons ht.field.level (.cons hb.field (.cons ho.nodes.level.field .nil))
    next hother =>
      split
      next heq => exact absurd rfl (hother _ _ _ _ _ _ _ rfl)
      next => exact hlast (.cons hk₀ (.cons hk₁ (.cons hk₂ hrest)))

/-- What is no link is left alone. -/
theorem twinChain_other (h : isLink (.mk i .ifStmt p fs) = false) : TwinChain plan first kept i p fs := by
  intro hwhole keys keys' _
  have hfs : ∀ test body orelse, fs ≠ [.child test, .many body, .many orelse] := by
    rintro test body orelse rfl
    cases h
  rw [visitChain, visitChain]
  · exact .pure (alike_self hwhole.old hwhole.placed)
  · exact hfs
  · exact hfs

end Nodes

/-! ## Lists and fields -/

theorem twinAll_cons {ns : List Node} (hn : TwinNode plan first kept n) (hns : TwinAll plan first kept ns) :
    TwinAll plan first kept (n :: ns) := by
  intro hwhole
  rw [Whole.nodes_cons] at hwhole
  rw [visitAll, visitAll]
  refine (hn hwhole.1).within.bind fun m m' hm ↦ ?_
  exact (hns hwhole.2).within.bind fun ms ms' hms ↦ .pure (hm.nodes.append hms)

/-- A statement that both passes pass by. -/
theorem alikeSlots_passed {slots slots' : List Slot} (hwhole : Whole first s.ids s.placed)
    (h : AlikeSlots first kept false rest slots slots') :
    AlikeSlots first kept doc (s :: rest) (⟨none, s⟩ :: slots) (⟨none, s⟩ :: slots') := by
  have hs : AlikeNodes first kept [s] [s] := (alike_self hwhole.old hwhole.placed).nodes
  have hfinished (slots : List Slot) : finished (⟨none, s⟩ :: slots) = s :: finished slots := by
    rw [finished_cons]
    rfl
  constructor
  case empty => simp
  case block =>
    rw [hfinished, hfinished]
    exact ⟨hs.append h.block.nodes, rfl⟩
  case docstring =>
    intro _ d rest' heq _
    obtain ⟨rfl, rfl⟩ := List.cons.inj heq
    exact ⟨_, _, hfinished slots, hfinished slots', hs, h.block⟩

/-- A statement with its counters. -/
theorem alikeSlots_walked {m m' : Node} {slots slots' : List Slot} {c c' : Option Node}
    (hdoc : ¬((doc && s.isDocstring || s.isFutureImport) = true)) (hm : Alike first kept s m m')
    (hc : AlikeNodes first kept c.toList c'.toList) (hplace : ∀ n ∈ c, n.place = s.place)
    (hplace' : ∀ n ∈ c', n.place = s.place) (h : AlikeSlots first kept false rest slots slots') :
    AlikeSlots first kept doc (s :: rest) (⟨c, m⟩ :: slots) (⟨c', m'⟩ :: slots') := by
  have hhead (c : Option Node) (m : Node) (slots : List Slot) (hc : ∀ n ∈ c, n.place = s.place)
      (hm : m.place = s.place) : (finished (⟨c, m⟩ :: slots)).head?.map Node.place = some s.place := by
    rw [finished_cons]
    cases c with
    | none => simp [hm]
    | some n => simp [hc n rfl]
  constructor
  case empty => simp
  case block =>
    refine ⟨?_, (hhead c m slots hplace hm.place).trans (hhead c' m' slots' hplace' hm.place').symm⟩
    rw [finished_cons, finished_cons]
    exact hc.append (hm.nodes.append h.block.nodes)
  case docstring =>
    intro hbody d rest' heq hd
    obtain ⟨rfl, rfl⟩ := List.cons.inj heq
    simp [hbody, hd] at hdoc

/-- Both passes pass over the same statements. -/
theorem twinBlock_cons (hall : ∀ kind, plan.counts kind = true) (hs : TwinNode plan first kept s)
    (hrest : TwinBlock plan first kept false rest) : TwinBlock plan first kept doc (s :: rest) := by
  intro hwhole
  rw [Whole.nodes_cons] at hwhole
  obtain ⟨hstmt, hwhole⟩ := hwhole
  have hpass : Twin first kept
      (do return ⟨none, s⟩ :: (← within (s :: ·) (visitBlock plan false rest)) : Visit (List Node) (List Slot))
      (do return ⟨none, s⟩ :: (← within (s :: ·) (visitBlock { plan with counts := kept } false rest)) :
        Visit (List Node) (List Slot)) (AlikeSlots first kept doc (s :: rest)) :=
    (hrest hwhole).within.bind fun slots slots' h ↦ .pure (alikeSlots_passed hstmt h)
  have hexcludes : Plan.excludes { plan with counts := kept } s = plan.excludes s := rfl
  rw [visitBlock, visitBlock, hexcludes]
  refine Twin.isMarked hstmt.old fun held ↦ ?_
  cases held with
  | true => exact hpass
  | false =>
    rw [if_neg Bool.false_ne_true, if_neg Bool.false_ne_true]
    by_cases hexcluded : plan.excludes s = true
    · rw [if_pos hexcluded, if_pos hexcluded]
      exact (twin_noteExcluded s).leaving.bind fun _ _ _ ↦ hpass
    rw [if_neg hexcluded, if_neg hexcluded]
    by_cases hdoc : (doc && s.isDocstring || s.isFutureImport) = true
    · rw [if_pos hdoc, if_pos hdoc]
      exact hpass
    rw [if_neg hdoc, if_neg hdoc]
    refine (twin_registerUnit hall .statement s none).leaving.bind ?_
    rintro k k' ⟨⟨span, hspan⟩, hk⟩
    refine (hs hstmt).within.bind fun m m' hm ↦ ?_
    refine (twin_markNode s).bind fun _ _ _ ↦ ?_
    refine (twin_countBefore hk (span?_of_locate hspan)).bind ?_
    rintro c c' ⟨hc, hplace, hplace'⟩
    exact (hrest hwhole).within.bind fun slots slots' h ↦ .pure (alikeSlots_walked hdoc hm hc hplace hplace' h)

theorem twinOperands_cons {v : Node} {vs : List Node} (hv : TwinNode plan first kept v)
    (hvs : TwinOperands plan first kept vs) : TwinOperands plan first kept (v :: vs) := by
  intro hwhole keys keys' hkeys
  rw [Whole.nodes_cons] at hwhole
  cases hkeys with
  | nil =>
    rw [visitOperands, visitOperands]
    · exact .pure alikeNodes_nil.level
    · simp
    · simp
  | cons hkey hkeys =>
    rw [visitOperands, visitOperands]
    refine (hv hwhole.1).within.bind fun m m' hm ↦ ?_
    refine (twin_wrap hkey hm).bind fun w w' hw ↦ ?_
    exact (hvs hwhole.2 _ _ hkeys).within.bind fun slots slots' h ↦ .pure (hw.nodes.append h)

section Clauses

variable {i : NodeId} {c : NodeClass} {p : Place}

/-- The clause of a `match` or a `try` with what the two passes put into it. -/
theorem levelNodes_clause {f' g g' h h' : Field} (hi : i < first) (hf : LevelField first kept f f')
    (hg : LevelField first kept g g') (hh : LevelField first kept h h') :
    LevelNodes first kept [.mk i c p [f, g, h]] [.mk i c p [f', g', h']] := by
  intro o ho
  have hinner := span?_innerPlace c p ho
  have hfields := viewFields_of_level (.cons hf (.cons hg (.cons hh .nil))) hinner
  rw [fillNodes_cons, fillNodes_cons, fillNodes_nil, viewNodes_cons, viewNodes_cons, Node.fillPlaces_mk,
    Node.fillPlaces_mk, Node.views_old hi, Node.views_old hi, hfields, viewNodes_nil, viewNodes_nil]

theorem twinCases_cons {pattern guard : Field} (hg : TwinField plan first kept guard)
    (hb : TwinBlock plan first kept false body) (hrest : TwinCases plan first kept rest) :
    TwinCases plan first kept (.mk i c p [pattern, guard, .many body] :: rest) := by
  intro hwhole keys keys' hkeys
  have hself := hwhole
  simp only [Whole.nodes_cons, Whole.mk_iff, Whole.fields_cons, Whole.many] at hwhole
  obtain ⟨⟨⟨hi, -⟩, hpattern, hguard, hbody, -⟩, hwhole⟩ := hwhole
  cases hkeys with
  | nil =>
    rw [visitCases, visitCases]
    · exact .pure (alikeNodes_self hself.old hself.placed).level
    · simp
    · simp
  | cons hkey hkeys =>
    rw [visitCases, visitCases]
    refine (hg hguard).within.bind fun g g' hg ↦ ?_
    refine (hb hbody).within.bind fun slots slots' hslots ↦ ?_
    refine (twin_prepend hkey hslots.block).bind fun b b' hb ↦ ?_
    refine (twin_mark i).bind fun _ _ _ ↦ ?_
    refine (hrest hwhole _ _ hkeys).within.bind fun cs cs' hcs ↦ .pure ?_
    exact (levelNodes_clause hi (alikeField_self hpattern.old hpattern.placed).level hg.level hb.field).append hcs

theorem twinHandlers_cons {type name : Field} (ht : TwinField plan first kept type)
    (hb : TwinBlock plan first kept false body) (hrest : TwinHandlers plan first kept rest) :
    TwinHandlers plan first kept (.mk i c p [type, name, .many body] :: rest) := by
  intro hwhole
  simp only [Whole.nodes_cons, Whole.mk_iff, Whole.fields_cons, Whole.many] at hwhole
  obtain ⟨⟨⟨hi, -⟩, htype, hname, hbody, -⟩, hwhole⟩ := hwhole
  rw [visitHandlers, visitHandlers]
  refine (ht htype).within.bind fun t t' ht ↦ ?_
  refine (hb hbody).within.bind fun slots slots' hslots ↦ ?_
  refine (twin_mark i).bind fun _ _ _ ↦ ?_
  refine (hrest hwhole).within.bind fun hs hs' hhs ↦ .pure ?_
  exact (levelNodes_clause hi ht.level (alikeField_self hname.old hname.placed).level
    hslots.block.nodes.field.level).append hhs

end Clauses

section Other

variable {ns : List Node} (h : startsWithHandler ns = false)

include h

theorem not_clause (i : NodeId) (c : NodeClass) (p : Place) (f g : Field) (body rest : List Node) :
    ns ≠ .mk i c p [f, g, .many body] :: rest := by
  rintro rfl
  simp [startsWithHandler] at h

/-- A list that does not start with a clause is left alone. -/
theorem twinHandlers_other : TwinHandlers plan first kept ns := by
  intro hwhole
  rw [visitHandlers, visitHandlers]
  · exact .pure (alikeNodes_self hwhole.old hwhole.placed).level
  · exact not_clause h
  · exact not_clause h

theorem twinCases_other : TwinCases plan first kept ns := by
  intro hwhole keys keys' _
  rw [visitCases, visitCases]
  · exact .pure (alikeNodes_self hwhole.old hwhole.placed).level
  · exact fun _ _ i c p f g body rest _ ↦ not_clause h i c p f g body rest
  · exact fun _ _ i c p f g body rest _ ↦ not_clause h i c p f g body rest

end Other

theorem twinFields_cons {name : String} {names : List String} (hf : TwinField plan first kept f)
    (hfs : TwinFields plan first kept names fs) : TwinFields plan first kept (name :: names) (f :: fs) := by
  intro hwhole
  rw [Whole.fields_cons] at hwhole
  obtain ⟨hfield, hfields⟩ := hwhole
  rw [visitFields, visitFields]
  cases isSkippedField name with
  | true =>
    exact (hfs hfields).within.bind fun gs gs' hgs ↦ .pure (.cons (alikeField_self hfield.old hfield.placed) hgs)
  | false =>
    refine (hf hfield).within.bind fun g g' hg ↦ ?_
    exact (hfs hfields).within.bind fun gs gs' hgs ↦ .pure (.cons hg hgs)

theorem twinField_child (hn : TwinNode plan first kept n) : TwinField plan first kept (.child n) := by
  intro hwhole
  rw [visitField, visitField]
  exact (hn (Whole.child.1 hwhole)).within.bind fun m m' hm ↦ .pure hm.field

theorem twinField_many {ns : List Node} (hb : TwinBlock plan first kept false ns) (ha : TwinAll plan first kept ns) :
    TwinField plan first kept (.many ns) := by
  intro hwhole
  rw [visitField, visitField]
  split
  next => exact (hb (Whole.many.1 hwhole)).within.bind fun slots slots' h ↦ .pure h.block.nodes.field
  next => exact (ha (Whole.many.1 hwhole)).within.bind fun ms ms' hms ↦ .pure hms.field

theorem twinField_atom (h : isAtom f = true) : TwinField plan first kept f := by
  intro hwhole
  cases f with
  | child n => cases h
  | many ns => cases h
  | _ =>
    rw [visitField, visitField]
    all_goals first | exact .pure (alikeField_self hwhole.old hwhole.placed) | simp

/-! ## Trees -/

mutual
/-- Two passes over a tree are twins. -/
theorem twin (hall : ∀ kind, plan.counts kind = true) : ∀ n : Node, TwinNode plan first kept n
  | .gap => fun _ ↦ .pure .gap
  | .mk i c p fs => by
    cases hrule : hasRule c fs with
    | false => exact twin_plain hrule (twinFields hall c.fieldNames fs)
    | true =>
      unfold hasRule at hrule
      split at hrule
      · exact twin_module (twinBlock hall true _)
      · exact twin_classDef (twinAll hall _) (twinAll hall _) (twinAll hall _) (twinBlock hall true _)
      · exact twin_functionDef hall (twinAll hall _) (twin hall _) (twinBlock hall true _)
      · exact twin_lambda hall (twin hall _) (twin hall _)
      · exact twin_ifStmt hall (twinChain hall i p _)
      · exact twin_ifExp hall (twin hall _) (twin hall _) (twin hall _)
      · exact twin_boolOp hall (twinOperands hall _)
      · exact twin_matchStmt hall (twin hall _) (twinCases hall _)
      · exact twin_whileLoop hall (twin hall _) (twinBlock hall false _) (twinBlock hall false _)
      · exact twin_forLoop hall (twin hall _) (twin hall _) (twinBlock hall false _) (twinBlock hall false _)
      · exact twin_tryStmt hall (twinBlock hall false _) (twinHandlers hall _) (twinBlock hall false _)
          (twinBlock hall false _)
      · cases hrule
termination_by n => sizeOf n

theorem twinChain (hall : ∀ kind, plan.counts kind = true) (i : NodeId) (p : Place) (fs : List Field) :
    TwinChain plan first kept i p fs := by
  cases hlink : isLink (.mk i .ifStmt p fs) with
  | false => exact twinChain_other hlink
  | true =>
    unfold isLink at hlink
    split at hlink
    next test body orelse heq =>
      cases heq
      refine twinChain_cons (twin hall test) (twinBlock hall false body) (twinBlock hall false orelse) ?_
      rintro j q fs rfl
      exact twinChain hall j q fs
    next => cases hlink
termination_by sizeOf fs

theorem twinBlock (hall : ∀ kind, plan.counts kind = true) (doc : Bool) :
    ∀ ns : List Node, TwinBlock plan first kept doc ns
  | [] => fun _ ↦ by
    rw [visitBlock, visitBlock]
    exact .pure (alikeSlots_nil doc)
  | s :: rest => twinBlock_cons hall (twin hall s) (twinBlock hall false rest)
termination_by ns => sizeOf ns

theorem twinAll (hall : ∀ kind, plan.counts kind = true) : ∀ ns : List Node, TwinAll plan first kept ns
  | [] => fun _ ↦ by
    rw [visitAll, visitAll]
    exact .pure alikeNodes_nil
  | n :: ns => twinAll_cons (twin hall n) (twinAll hall ns)
termination_by ns => sizeOf ns

theorem twinOperands (hall : ∀ kind, plan.counts kind = true) : ∀ vs : List Node, TwinOperands plan first kept vs
  | [] => fun _ keys keys' _ ↦ by
    rw [visitOperands, visitOperands]
    · exact .pure alikeNodes_nil.level
    · simp
    · simp
  | v :: vs => twinOperands_cons (twin hall v) (twinOperands hall vs)
termination_by vs => sizeOf vs

theorem twinCases (hall : ∀ kind, plan.counts kind = true) (cs : List Node) : TwinCases plan first kept cs := by
  cases hstarts : startsWithHandler cs with
  | false => exact twinCases_other hstarts
  | true =>
    unfold startsWithHandler at hstarts
    split at hstarts
    next i c p pattern guard body rest =>
      exact twinCases_cons (twinField hall guard) (twinBlock hall false body) (twinCases hall rest)
    next => cases hstarts
termination_by sizeOf cs

theorem twinHandlers (hall : ∀ kind, plan.counts kind = true) (hs : List Node) : TwinHandlers plan first kept hs := by
  cases hstarts : startsWithHandler hs with
  | false => exact twinHandlers_other hstarts
  | true =>
    unfold startsWithHandler at hstarts
    split at hstarts
    next i c p type name body rest =>
      exact twinHandlers_cons (twinField hall type) (twinBlock hall false body) (twinHandlers hall rest)
    next => cases hstarts
termination_by sizeOf hs

theorem twinFields (hall : ∀ kind, plan.counts kind = true) :
    ∀ (names : List String) (fs : List Field), TwinFields plan first kept names fs
  | names, [] => fun _ ↦ by
    rw [visitFields, visitFields]
    · exact .pure .nil
    all_goals simp
  | [], fs => fun hwhole ↦ by
    rw [visitFields, visitFields]
    · exact .pure (alikeFields_self hwhole.old hwhole.placed)
    all_goals simp
  | name :: names, f :: fs => twinFields_cons (twinField hall f) (twinFields hall names fs)
termination_by _ fs => sizeOf fs

theorem twinField (hall : ∀ kind, plan.counts kind = true) : ∀ f : Field, TwinField plan first kept f
  | .child n => twinField_child (twin hall n)
  | .many ns => twinField_many (twinBlock hall false ns) (twinAll hall ns)
  | .none | .text _ | .number _ | .constant _ | .names _ => twinField_atom rfl
termination_by f => sizeOf f
end

end Coverage.Pass
