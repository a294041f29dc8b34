import Coverage.Proofs.Projection.Walk
import Coverage.Proofs.Sharing.Lockstep

/-!
# The walk in two places

A walk through a tree only looks at the marks on the tree, so taken with two tables that agree there it does the same
twice. There is one lemma for each kind of node, which takes what is known of its parts, and a recursion over trees
that puts them together.
-/

namespace Coverage.Pass

open Syntax

variable {plan : Plan} {r : Relocation}
variable {fs : List Field} {body orelse : List Node}

/-! ## Parts of a walk -/

section Parts

variable (plan : Plan) (r : Relocation)

def LockNode (n : Node) : Prop :=
  n.ids ⊆ r.own →
    Lockstep r (Node.rename r.rename) (Prod.map id (Node.rename r.rename)) (visit plan n) (visit plan n)

def LockAll (ns : List Node) : Prop :=
  nodesIds ns ⊆ r.own →
    Lockstep r (renameNodes r.rename) (Prod.map id (renameNodes r.rename)) (visitAll plan ns) (visitAll plan ns)

def LockBlock (doc : Bool) (ns : List Node) : Prop :=
  nodesIds ns ⊆ r.own →
    Lockstep r (List.map (Slot.rename r.rename)) (Prod.map id (renameNodes r.rename)) (visitBlock plan doc ns)
      (visitBlock plan doc ns)

def LockField (f : Field) : Prop :=
  f.ids ⊆ r.own →
    Lockstep r (Field.rename r.rename) (Prod.map id (Field.rename r.rename)) (visitField plan f) (visitField plan f)

def LockFields (names : List String) (fs : List Field) : Prop :=
  fieldsIds fs ⊆ r.own →
    Lockstep r (renameFields r.rename) (Prod.map id (renameFields r.rename)) (visitFields plan names fs)
      (visitFields plan names fs)

def LockOperands (vs : List Node) : Prop :=
  nodesIds vs ⊆ r.own → ∀ keys,
    Lockstep r (List.map (Prod.map (Node.rename r.rename) (Node.rename r.rename)))
      (Prod.map id (renameNodes r.rename)) (visitOperands plan keys vs) (visitOperands plan keys vs)

def LockCases (cs : List Node) : Prop :=
  nodesIds cs ⊆ r.own → ∀ keys,
    Lockstep r (renameNodes r.rename) (Prod.map id (renameNodes r.rename)) (visitCases plan keys cs)
      (visitCases plan keys cs)

def LockHandlers (hs : List Node) : Prop :=
  nodesIds hs ⊆ r.own →
    Lockstep r (renameNodes r.rename) (Prod.map id (renameNodes r.rename)) (visitHandlers plan hs)
      (visitHandlers plan hs)

def LockChain (i : NodeId) (p : Place) (fs : List Field) : Prop :=
  (Node.mk i .ifStmt p fs).ids ⊆ r.own → ∀ keys,
    Lockstep r (Node.rename r.rename) (Prod.map id (Node.rename r.rename)) (visitChain plan i p keys fs)
      (visitChain plan i p keys fs)

end Parts

/-! ## Nodes of the tree -/

namespace Relocation

variable (r)

/-- What the tree is made of stays where it is. -/
theorem rename_node {n : Node} (h : n.ids ⊆ r.own) : n.rename r.rename = n :=
  rename_eq_self _ n fun i hi ↦ r.old i (h hi)

theorem rename_nodes {ns : List Node} (h : nodesIds ns ⊆ r.own) : renameNodes r.rename ns = ns :=
  renameNodes_eq_self _ ns fun i hi ↦ r.old i (h hi)

theorem rename_field {f : Field} (h : f.ids ⊆ r.own) : f.rename r.rename = f :=
  f.rename_eq_self _ fun i hi ↦ r.old i (h hi)

theorem rename_fields {fs : List Field} (h : fieldsIds fs ⊆ r.own) : renameFields r.rename fs = fs :=
  renameFields_eq_self _ fs fun i hi ↦ r.old i (h hi)

end Relocation

section Own

variable {own : List NodeId}

theorem own_mk {i : NodeId} {c : NodeClass} {p : Place} :
    (Node.mk i c p fs).ids ⊆ own ↔ i ∈ own ∧ fieldsIds fs ⊆ own := by
  rw [Node.ids, List.cons_subset]

theorem own_fields {f : Field} : fieldsIds (f :: fs) ⊆ own ↔ f.ids ⊆ own ∧ fieldsIds fs ⊆ own := by
  rw [fieldsIds_cons, List.append_subset]

theorem own_nodes {n : Node} {ns : List Node} : nodesIds (n :: ns) ⊆ own ↔ n.ids ⊆ own ∧ nodesIds ns ⊆ own := by
  rw [nodesIds, List.append_subset]

end Own

/-! ## Nodes -/

/-- Both walks pass by a marked node; of the others only the walk itself has to be looked at. -/
theorem lock_mk {i : NodeId} {c : NodeClass} {p : Place} {rest : Visit Node Node}
    (hown : (Node.mk i c p fs).ids ⊆ r.own)
    (hvisit : visit plan (.mk i c p fs) = (do if ← isMarked (.mk i c p fs) then return .mk i c p fs
                                              rest))
    (hrest : Lockstep r (Node.rename r.rename) (Prod.map id (Node.rename r.rename)) rest rest) :
    Lockstep r (Node.rename r.rename) (Prod.map id (Node.rename r.rename)) (visit plan (.mk i c p fs))
      (visit plan (.mk i c p fs)) := by
  rw [hvisit]
  refine lockstep_isMarked hown fun held ↦ ?_
  cases held with
  | true => exact .pure (r.rename_node hown).symm
  | false => exact hrest

section Nodes

variable {i : NodeId} {p : Place}

theorem lock_module {ignores : Field} (hb : LockBlock plan r true body) :
    LockNode plan r (.mk i .module p [.many body, ignores]) := by
  intro hown
  refine lock_mk hown (by rw [visit]) ?_
  simp only [own_mk, own_fields, Field.ids_many] at hown
  obtain ⟨hi, hbody, hignores, -⟩ := hown
  have hnode (b : List Node) : Node.mk i .module p [.many (renameNodes r.rename b), ignores] =
      (Node.mk i .module p [.many b, ignores]).rename r.rename := by
    simp [r.old i hi, r.rename_field hignores]
  refine ((hb hbody).within hnode).bind fun slots ↦ ?_
  refine (lockstep_mark hi).bind fun _ ↦ .pure ?_
  rw [finished_rename, hnode]

theorem lock_classDef {name : Field} {bases keywords decorators : List Node} (hds : LockAll plan r decorators)
    (hbs : LockAll plan r bases) (hks : LockAll plan r keywords) (hb : LockBlock plan r true body) :
    LockNode plan r (.mk i .classDef p [name, .many bases, .many keywords, .many body, .many decorators]) := by
  intro hown
  refine lock_mk hown (by rw [visit]) ?_
  simp only [own_mk, own_fields, Field.ids_many] at hown
  obtain ⟨hi, hname, hbases, hkeywords, hbody, hdecorators, -⟩ := hown
  have hnode (bs ks b ds : List Node) :
      (Node.mk i .classDef p [name, .many bs, .many ks, .many b, .many ds]).rename r.rename =
        .mk i .classDef p [name, .many (renameNodes r.rename bs), .many (renameNodes r.rename ks),
          .many (renameNodes r.rename b), .many (renameNodes r.rename ds)] := by
    simp [r.old i hi, r.rename_field hname]
  refine ((hds hdecorators).within fun ds ↦ ?_).bind fun ds ↦ ?_
  · rw [hnode, r.rename_nodes hbases, r.rename_nodes hkeywords, r.rename_nodes hbody]
  refine ((hbs hbases).within fun bs ↦ ?_).bind fun bs ↦ ?_
  · rw [hnode, r.rename_nodes hkeywords, r.rename_nodes hbody]
  refine ((hks hkeywords).within fun ks ↦ ?_).bind fun ks ↦ ?_
  · rw [hnode, r.rename_nodes hbody]
  refine ((hb hbody).within fun b ↦ ?_).bind fun slots ↦ .pure ?_
  · rw [hnode]
  · rw [hnode, finished_rename]

theorem lock_functionDef {async : Bool} {name : String} {args : Node} {decorators : List Node}
    {returns comment : Field} (hds : LockAll plan r decorators) (ha : LockNode plan r args)
    (hb : LockBlock plan r true body) : LockNode plan r (.mk i (.functionDef async) p
      [.text name, .child args, .many body, .many decorators, returns, comment]) := by
  intro hown
  have hself := r.rename_node hown
  refine lock_mk hown (by rw [visit]) ?_
  simp only [own_mk, own_fields, Field.ids_many, Field.ids_child] at hown
  obtain ⟨hi, -, hargs, hbody, hdecorators, hreturns, hcomment, -⟩ := hown
  have hnode (a : Node) (b ds : List Node) :
      (Node.mk i (.functionDef async) p
        [.text name, .child a, .many b, .many ds, returns, comment]).rename r.rename =
        .mk i (.functionDef async) p [.text name, .child (a.rename r.rename), .many (renameNodes r.rename b),
          .many (renameNodes r.rename ds), returns, comment] := by
    simp [r.old i hi, r.rename_field hreturns, r.rename_field hcomment]
  refine ((lockstep_registerUnit _ _ _).leaving hself.symm).bind fun key ↦ ?_
  refine ((hds hdecorators).within fun ds ↦ ?_).bind fun ds ↦ ?_
  · rw [hnode, r.rename_node hargs, r.rename_nodes hbody]
  refine ((ha hargs).within fun a ↦ ?_).bind fun a ↦ ?_
  · rw [hnode, r.rename_nodes hbody]
  refine ((lockstep_firstIsDocstring body).leaving ?_).bind fun doc ↦ ?_
  · rw [hnode, r.rename_nodes hbody]
  refine ((hb hbody).within fun b ↦ ?_).bind fun slots ↦ ?_
  · rw [hnode]
  rw [finished_rename]
  refine (lockstep_countEntry key doc _).bind fun b ↦ .pure ?_
  rw [hnode]

theorem lock_lambda {args body : Node} (ha : LockNode plan r args) (hb : LockNode plan r body) :
    LockNode plan r (.mk i .lambda p [.child args, .child body]) := by
  intro hown
  have hself := r.rename_node hown
  refine lock_mk hown (by rw [visit]) ?_
  simp only [own_mk, own_fields, Field.ids_child] at hown
  obtain ⟨hi, hargs, hbody, -⟩ := hown
  have hnode (a b : Node) : (Node.mk i .lambda p [.child a, .child b]).rename r.rename =
      .mk i .lambda p [.child (a.rename r.rename), .child (b.rename r.rename)] := by
    simp [r.old i hi]
  refine ((lockstep_registerUnit _ _ _).leaving hself.symm).bind fun key ↦ ?_
  refine ((ha hargs).within fun a ↦ ?_).bind fun a ↦ ?_
  · rw [hnode, r.rename_node hbody]
  refine ((hb hbody).within fun b ↦ ?_).bind fun b ↦ ?_
  · rw [hnode]
  refine (lockstep_wrap key b).bind fun b ↦ ?_
  refine (lockstep_mark hi).bind fun _ ↦ .pure ?_
  rw [hnode]

theorem lock_ifExp {test body orelse : Node} (ht : LockNode plan r test) (hb : LockNode plan r body)
    (ho : LockNode plan r orelse) : LockNode plan r (.mk i .ifExp p [.child test, .child body, .child orelse]) := by
  intro hown
  have hself := r.rename_node hown
  refine lock_mk hown (by rw [visit]) ?_
  simp only [own_mk, own_fields, Field.ids_child] at hown
  obtain ⟨hi, htest, hbody, horelse, -⟩ := hown
  have hnode (t b o : Node) : (Node.mk i .ifExp p [.child t, .child b, .child o]).rename r.rename =
      .mk i .ifExp p [.child (t.rename r.rename), .child (b.rename r.rename), .child (o.rename r.rename)] := by
    simp [r.old i hi]
  have hgroup (n : Node) : Lockstep r id id
      (do let first ← located (locate body)
          let second ← located (locate orelse)
          registerGroup plan .ternary n [first, second])
      (do let first ← located (locate body)
          let second ← located (locate orelse)
          registerGroup plan .ternary n [first, second]) :=
    (lockstep_located _).bind fun _ ↦ (lockstep_located _).bind fun _ ↦ lockstep_registerGroup _ _ _
  refine ((hgroup _).leaving hself.symm).bind fun keys ↦ ?_
  refine ((ht htest).within fun t ↦ ?_).bind fun t ↦ ?_
  · rw [hnode, r.rename_node hbody, r.rename_node horelse]
  refine ((hb hbody).within fun b ↦ ?_).bind fun b ↦ ?_
  · rw [hnode, r.rename_node horelse]
  refine (lockstep_wrap _ b).bind fun b ↦ ?_
  refine ((ho horelse).within fun o ↦ ?_).bind fun o ↦ ?_
  · rw [hnode]
  refine (lockstep_wrap _ o).bind fun o ↦ ?_
  refine (lockstep_mark hi).bind fun _ ↦ .pure ?_
  rw [hnode]

theorem lock_boolOp {op : Field} {values : List Node} (hvs : LockOperands plan r values) :
    LockNode plan r (.mk i .boolOp p [op, .many values]) := by
  intro hown
  have hself := r.rename_node hown
  refine lock_mk hown (by rw [visit]) ?_
  simp only [own_mk, own_fields, Field.ids_many] at hown
  obtain ⟨hi, hop, hvalues, -⟩ := hown
  have hnode (vs : List Node) : Node.mk i .boolOp p [op, .many (renameNodes r.rename vs)] =
      (Node.mk i .boolOp p [op, .many vs]).rename r.rename := by
    simp [r.old i hi, r.rename_field hop]
  refine ((lockstep_fork _ _ _).leaving hself.symm).bind fun keys ↦ ?_
  refine ((hvs hvalues keys).within hnode).bind fun slots ↦ ?_
  refine (lockstep_mark hi).bind fun _ ↦ .pure ?_
  rw [← hnode, renameNodes_eq_map, List.map_map, List.map_map]
  rfl

theorem lock_matchStmt {subject : Node} {cases : List Node} (hs : LockNode plan r subject)
    (hcs : LockCases plan r cases) : LockNode plan r (.mk i .matchStmt p [.child subject, .many cases]) := by
  intro hown
  have hself := r.rename_node hown
  refine lock_mk hown (by rw [visit]) ?_
  simp only [own_mk, own_fields, Field.ids_many, Field.ids_child] at hown
  obtain ⟨hi, hsubject, hcases, -⟩ := hown
  have hnode (s : Node) (cs : List Node) : (Node.mk i .matchStmt p [.child s, .many cs]).rename r.rename =
      .mk i .matchStmt p [.child (s.rename r.rename), .many (renameNodes r.rename cs)] := by
    simp [r.old i hi]
  refine ((lockstep_lastIsDefault cases).leaving hself.symm).bind fun hasDefault ↦ ?_
  refine ((lockstep_fork _ _ _).leaving hself.symm).bind fun keys ↦ ?_
  refine ((hs hsubject).within fun s ↦ ?_).bind fun s ↦ ?_
  · rw [hnode, r.rename_nodes hcases]
  refine ((hcs hcases keys).within fun cs ↦ ?_).bind fun cs ↦ ?_
  · rw [hnode]
  cases hasDefault with
  | true => exact .pure (hnode s cs).symm
  | false => exact (lockstep_addFallback _ s cs).bind fun cs ↦ .pure (hnode s cs).symm

theorem lock_whileLoop {test : Node} (ht : LockNode plan r test)
    (hb : LockBlock plan r false body) (ho : LockBlock plan r false orelse) :
    LockNode plan r (.mk i .whileLoop p [.child test, .many body, .many orelse]) := by
  intro hown
  have hself := r.rename_node hown
  refine lock_mk hown (by rw [visit]) ?_
  simp only [own_mk, own_fields, Field.ids_many, Field.ids_child] at hown
  obtain ⟨hi, htest, hbody, horelse, -⟩ := hown
  have hnode (t : Node) (b o : List Node) :
      (Node.mk i .whileLoop p [.child t, .many b, .many o]).rename r.rename =
        .mk i .whileLoop p [.child (t.rename r.rename), .many (renameNodes r.rename b),
          .many (renameNodes r.rename o)] := by
    simp [r.old i hi]
  refine ((lockstep_fork _ _ _).leaving hself.symm).bind fun keys ↦ ?_
  refine ((ht htest).within fun t ↦ ?_).bind fun t ↦ ?_
  · rw [hnode, r.rename_nodes hbody, r.rename_nodes horelse]
  refine ((hb hbody).within fun b ↦ ?_).bind fun slots ↦ ?_
  · rw [hnode, r.rename_nodes horelse]
  rw [finished_rename]
  refine (lockstep_prepend _ _).bind fun b ↦ ?_
  refine ((ho horelse).within fun o ↦ ?_).bind fun slots ↦ ?_
  · rw [hnode]
  rw [place_rename]
  refine (lockstep_elseClause _ _ slots).bind fun o ↦ .pure ?_
  rw [hnode]

theorem lock_forLoop {async : Bool} {target iter : Node} {comment : Field}
    (ht : LockNode plan r target) (hs : LockNode plan r iter) (hb : LockBlock plan r false body)
    (ho : LockBlock plan r false orelse) : LockNode plan r (.mk i (.forLoop async) p
      [.child target, .child iter, .many body, .many orelse, comment]) := by
  intro hown
  have hself := r.rename_node hown
  refine lock_mk hown (by rw [visit]) ?_
  simp only [own_mk, own_fields, Field.ids_many, Field.ids_child] at hown
  obtain ⟨hi, htarget, hiter, hbody, horelse, hcomment, -⟩ := hown
  have hnode (t s : Node) (b o : List Node) :
      (Node.mk i (.forLoop async) p [.child t, .child s, .many b, .many o, comment]).rename r.rename =
        .mk i (.forLoop async) p [.child (t.rename r.rename), .child (s.rename r.rename),
          .many (renameNodes r.rename b), .many (renameNodes r.rename o), comment] := by
    simp [r.old i hi, r.rename_field hcomment]
  refine ((lockstep_fork _ _ _).leaving hself.symm).bind fun keys ↦ ?_
  refine ((ht htarget).within fun t ↦ ?_).bind fun t ↦ ?_
  · rw [hnode, r.rename_node hiter, r.rename_nodes hbody, r.rename_nodes horelse]
  refine ((hs hiter).within fun s ↦ ?_).bind fun s ↦ ?_
  · rw [hnode, r.rename_nodes hbody, r.rename_nodes horelse]
  refine ((hb hbody).within fun b ↦ ?_).bind fun slots ↦ ?_
  · rw [hnode, r.rename_nodes horelse]
  rw [finished_rename]
  refine (lockstep_prepend _ _).bind fun b ↦ ?_
  refine ((ho horelse).within fun o ↦ ?_).bind fun slots ↦ ?_
  · rw [hnode]
  rw [place_rename]
  refine (lockstep_elseClause _ _ slots).bind fun o ↦ .pure ?_
  rw [hnode]

theorem lock_tryStmt {star : Bool} {handlers finalbody : List Node} (hb : LockBlock plan r false body)
    (hh : LockHandlers plan r handlers) (ho : LockBlock plan r false orelse)
    (hf : LockBlock plan r false finalbody) : LockNode plan r (.mk i (.tryStmt star) p
      [.many body, .many handlers, .many orelse, .many finalbody]) := by
  intro hown
  have hself := r.rename_node hown
  refine lock_mk hown (by rw [visit]) ?_
  simp only [own_mk, own_fields, Field.ids_many] at hown
  obtain ⟨hi, hbody, hhandlers, horelse, hfinalbody, -⟩ := hown
  have hnode (b h o f : List Node) :
      (Node.mk i (.tryStmt star) p [.many b, .many h, .many o, .many f]).rename r.rename =
        .mk i (.tryStmt star) p [.many (renameNodes r.rename b), .many (renameNodes r.rename h),
          .many (renameNodes r.rename o), .many (renameNodes r.rename f)] := by
    simp [r.old i hi]
  refine ((lockstep_fork _ _ _).leaving hself.symm).bind fun keys ↦ ?_
  refine ((hb hbody).within fun b ↦ ?_).bind fun slots ↦ ?_
  · rw [hnode, r.rename_nodes hhandlers, r.rename_nodes horelse, r.rename_nodes hfinalbody]
  refine ((hh hhandlers).within fun h ↦ ?_).bind fun h ↦ ?_
  · rw [hnode, bare_rename, r.rename_nodes horelse, r.rename_nodes hfinalbody]
  refine ((ho horelse).within fun o ↦ ?_).bind fun o ↦ ?_
  · rw [hnode, bare_rename, r.rename_nodes hfinalbody]
  refine ((hf hfinalbody).within fun f ↦ ?_).bind fun f ↦ ?_
  · rw [hnode, bare_rename, finished_rename]
  rw [finished_rename]
  refine (lockstep_guardBody keys _).bind fun b ↦ .pure ?_
  rw [hnode, finished_rename, finished_rename]

/-- A node for which there is no rule is walked field by field. -/
theorem lock_plain {c : NodeClass} (noRule : hasRule c fs = false)
    (h : LockFields plan r c.fieldNames fs) : LockNode plan r (.mk i c p fs) := by
  intro hown
  refine lock_mk hown (visit_of_not_hasRule noRule p) ?_
  rw [own_mk] at hown
  have hnode (fs : List Field) :
      Node.mk i c p (renameFields r.rename fs) = (Node.mk i c p fs).rename r.rename := by
    rw [Node.rename_mk, r.old i hown.1]
  exact ((h hown.2).within hnode).bind fun fs ↦ .pure (hnode fs)

/-! ## Chains -/

/-- The links of a chain are the same for both walks, which see the same marks on it. -/
theorem lock_ifStmt (h : LockChain plan r i p fs) : LockNode plan r (.mk i .ifStmt p fs) := by
  intro hown
  have hself := r.rename_node hown
  have hwalk (arms : Except Unlocated (List Span)) :
      Lockstep r (Node.rename r.rename) (Prod.map id (Node.rename r.rename))
        (do let keys ← leaving (.mk i .ifStmt p fs) do
              registerGroup plan .ifChain (.mk i .ifStmt p fs) (← located arms)
            visitChain plan i p keys fs)
        (do let keys ← leaving (.mk i .ifStmt p fs) do
              registerGroup plan .ifChain (.mk i .ifStmt p fs) (← located arms)
            visitChain plan i p keys fs) :=
    ((lockstep_fork _ _ arms).leaving hself.symm).bind (h hown)
  refine lock_mk hown (by rw [visit]) (.get (fun s ↦ (hwalk _).moves s) fun s s' hs ↦ ?_)
  have harms : chainArms plan s.marks (.mk i .ifStmt p fs) = chainArms plan s'.marks (.mk i .ifStmt p fs) :=
    chainArms_congr _ fun j hj ↦ (hs.marks j (hown hj)).symm
  rw [harms]
  exact (hwalk _).follows s s' hs

/-- Both walks see the same links. -/
theorem lockChain_cons {test : Node} (ht : LockNode plan r test)
    (hb : LockBlock plan r false body) (ho : LockBlock plan r false orelse)
    (hnext : ∀ j q fs, orelse = [.mk j .ifStmt q fs] → LockChain plan r j q fs) :
    LockChain plan r i p [.child test, .many body, .many orelse] := by
  intro hown keys
  simp only [own_mk, own_fields, Field.ids_many, Field.ids_child] at hown
  obtain ⟨hi, htest, hbody, horelse, -⟩ := hown
  have hnode (t : Node) (b o : List Node) :
      (Node.mk i .ifStmt p [.child t, .many b, .many o]).rename r.rename =
        .mk i .ifStmt p [.child (t.rename r.rename), .many (renameNodes r.rename b),
          .many (renameNodes r.rename o)] := by
    simp [r.old i hi]
  rw [visitChain]
  refine ((ht htest).within fun t ↦ ?_).bind fun t ↦ ?_
  · rw [hnode, r.rename_nodes hbody, r.rename_nodes horelse]
  refine ((hb hbody).within fun b ↦ ?_).bind fun slots ↦ ?_
  · rw [hnode, r.rename_nodes horelse]
  rw [finished_rename]
  refine (lockstep_prepend _ _).bind fun b ↦ ?_
  refine (lockstep_mark hi).bind fun _ ↦ ?_
  split
  next key key' keys j q fs =>
    have hlink : (Node.mk j .ifStmt q fs).ids ⊆ r.own := (own_nodes.1 horelse).1
    refine ((hnext j q fs rfl hlink _).within fun o ↦ ?_).bind fun o ↦ .pure ?_
    · rw [hnode, renameNodes_cons, renameNodes_nil]
    · rw [hnode, renameNodes_cons, renameNodes_nil]
  next =>
    refine ((ho horelse).within fun o ↦ ?_).bind fun slots ↦ ?_
    · rw [hnode]
    rw [place_rename]
    refine (lockstep_elseClause _ _ slots).bind fun o ↦ .pure ?_
    rw [hnode]

/-- What is no link is left alone. -/
theorem lockChain_other (h : isLink (.mk i .ifStmt p fs) = false) : LockChain plan r i p fs := by
  intro hown keys
  rw [visitChain]
  · exact .pure (r.rename_node hown).symm
  · rintro test body orelse rfl
    cases h

end Nodes

/-! ## Lists and fields -/

theorem lockAll_cons {n : Node} {ns : List Node} (hn : LockNode plan r n) (hns : LockAll plan r ns) :
    LockAll plan r (n :: ns) := by
  intro hown
  rw [own_nodes] at hown
  rw [visitAll]
  refine ((hn hown.1).within fun m ↦ ?_).bind fun m ↦ ?_
  · rw [renameNodes_cons, r.rename_nodes hown.2]
  exact ((hns hown.2).within fun ms ↦ (renameNodes_cons m ms).symm).bind fun ms ↦ .pure (renameNodes_cons m ms).symm

/-- Both walks pass over the same statements. -/
theorem lockBlock_cons {doc : Bool} {s : Node} {rest : List Node} (hs : LockNode plan r s)
    (hrest : LockBlock plan r false rest) : LockBlock plan r doc (s :: rest) := by
  intro hown
  have hself := r.rename_nodes hown
  rw [own_nodes] at hown
  have hpass : Lockstep r (List.map (Slot.rename r.rename)) (Prod.map id (renameNodes r.rename))
      (do return ⟨none, s⟩ :: (← within (s :: ·) (visitBlock plan false rest)) : Visit (List Node) (List Slot))
      (do return ⟨none, s⟩ :: (← within (s :: ·) (visitBlock plan false rest)) : Visit (List Node) (List Slot)) := by
    refine ((hrest hown.2).within fun ns ↦ ?_).bind fun slots ↦ .pure ?_
    · rw [renameNodes_cons, r.rename_node hown.1]
    · rw [List.map_cons, Slot.rename, r.rename_node hown.1]
      rfl
  rw [visitBlock]
  refine lockstep_isMarked hown.1 fun held ↦ ?_
  cases held with
  | true => exact hpass
  | false =>
    rw [if_neg Bool.false_ne_true]
    split
    next => exact ((lockstep_noteExcluded s).leaving hself.symm).bind fun _ ↦ hpass
    next =>
      split
      next => exact hpass
      next =>
        refine ((lockstep_registerUnit .statement s none).leaving hself.symm).bind fun key ↦ ?_
        refine ((hs hown.1).within fun m ↦ ?_).bind fun m ↦ ?_
        · rw [renameNodes_cons, r.rename_nodes hown.2]
        refine (lockstep_markNode hown.1).bind fun _ ↦ ?_
        refine (lockstep_countBefore key s.place).bind fun c ↦ ?_
        exact ((hrest hown.2).within fun ns ↦ (renameNodes_cons m ns).symm).bind fun slots ↦ .pure rfl

theorem lockOperands_cons {v : Node} {vs : List Node} (hv : LockNode plan r v) (hvs : LockOperands plan r vs) :
    LockOperands plan r (v :: vs) := by
  intro hown keys
  rw [own_nodes] at hown
  cases keys with
  | nil =>
    rw [visitOperands]
    · exact .pure rfl
    · simp
  | cons key keys =>
    rw [visitOperands]
    refine ((hv hown.1).within fun m ↦ ?_).bind fun m ↦ ?_
    · rw [renameNodes_cons, r.rename_nodes hown.2]
    refine (lockstep_wrap key m).bind fun w ↦ ?_
    exact ((hvs hown.2 keys).within fun ns ↦ (renameNodes_cons m ns).symm).bind fun slots ↦ .pure rfl

section Clauses

variable {i : NodeId} {c : NodeClass} {p : Place}

theorem lockCases_cons {pattern guard : Field} {rest : List Node} (hg : LockField plan r guard)
    (hb : LockBlock plan r false body) (hrest : LockCases plan r rest) :
    LockCases plan r (.mk i c p [pattern, guard, .many body] :: rest) := by
  intro hown keys
  have hself := r.rename_nodes hown
  simp only [own_nodes, own_mk, own_fields, Field.ids_many] at hown
  obtain ⟨⟨hi, hpattern, hguard, hbody, -⟩, hown⟩ := hown
  have hnode (g : Field) (b rest : List Node) :
      renameNodes r.rename (.mk i c p [pattern, g, .many b] :: rest) =
        .mk i c p [pattern, g.rename r.rename, .many (renameNodes r.rename b)] :: renameNodes r.rename rest := by
    simp [r.old i hi, r.rename_field hpattern]
  cases keys with
  | nil =>
    rw [visitCases]
    · exact .pure hself.symm
    · simp
  | cons key keys =>
    rw [visitCases]
    refine ((hg hguard).within fun g ↦ ?_).bind fun g ↦ ?_
    · rw [hnode, r.rename_nodes hbody, r.rename_nodes hown]
    refine ((hb hbody).within fun b ↦ ?_).bind fun slots ↦ ?_
    · rw [hnode, r.rename_nodes hown]
    rw [finished_rename]
    refine (lockstep_prepend key _).bind fun b ↦ ?_
    refine (lockstep_mark hi).bind fun _ ↦ ?_
    refine ((hrest hown keys).within fun cs ↦ ?_).bind fun cs ↦ .pure ?_
    · rw [hnode]
    · rw [hnode]

theorem lockHandlers_cons {type name : Field} {rest : List Node} (ht : LockField plan r type)
    (hb : LockBlock plan r false body) (hrest : LockHandlers plan r rest) :
    LockHandlers plan r (.mk i c p [type, name, .many body] :: rest) := by
  intro hown
  simp only [own_nodes, own_mk, own_fields, Field.ids_many] at hown
  obtain ⟨⟨hi, htype, hname, hbody, -⟩, hown⟩ := hown
  have hnode (t : Field) (b rest : List Node) :
      renameNodes r.rename (.mk i c p [t, name, .many b] :: rest) =
        .mk i c p [t.rename r.rename, name, .many (renameNodes r.rename b)] :: renameNodes r.rename rest := by
    simp [r.old i hi, r.rename_field hname]
  rw [visitHandlers]
  refine ((ht htype).within fun t ↦ ?_).bind fun t ↦ ?_
  · rw [hnode, r.rename_nodes hbody, r.rename_nodes hown]
  refine ((hb hbody).within fun b ↦ ?_).bind fun slots ↦ ?_
  · rw [hnode, r.rename_nodes hown]
  rw [finished_rename]
  refine (lockstep_mark hi).bind fun _ ↦ ?_
  refine ((hrest hown).within fun hs ↦ ?_).bind fun hs ↦ .pure ?_
  · rw [hnode]
  · rw [hnode]

end Clauses

section Other

variable {ns : List Node} (h : startsWithHandler ns = false)

include h

/-- A list that does not start with a clause is left alone. -/
theorem lockHandlers_other : LockHandlers plan r ns := by
  intro hown
  rw [visitHandlers]
  · exact .pure (r.rename_nodes hown).symm
  · exact not_clause h

theorem lockCases_other : LockCases plan r ns := by
  intro hown keys
  rw [visitCases]
  · exact .pure (r.rename_nodes hown).symm
  · exact fun _ _ i c p f g body rest _ ↦ not_clause h i c p f g body rest

end Other

theorem lockFields_cons {name : String} {names : List String} {f : Field} (hf : LockField plan r f)
    (hfs : LockFields plan r names fs) : LockFields plan r (name :: names) (f :: fs) := by
  intro hown
  rw [own_fields] at hown
  rw [visitFields]
  cases isSkippedField name with
  | true =>
    refine ((hfs hown.2).within fun gs ↦ ?_).bind fun gs ↦ .pure ?_
    · rw [renameFields_cons, r.rename_field hown.1]
    · rw [renameFields_cons, r.rename_field hown.1]
  | false =>
    refine ((hf hown.1).within fun g ↦ ?_).bind fun g ↦ ?_
    · rw [renameFields_cons, r.rename_fields hown.2]
    refine ((hfs hown.2).within fun gs ↦ ?_).bind fun gs ↦ .pure ?_
    · rw [renameFields_cons]
    · rw [renameFields_cons]

theorem lockField_child {n : Node} (hn : LockNode plan r n) : LockField plan r (.child n) := by
  intro hown
  rw [Field.ids_child] at hown
  rw [visitField]
  exact ((hn hown).within fun m ↦ (Field.rename_child m).symm).bind fun m ↦ .pure (Field.rename_child m).symm

theorem lockField_many {ns : List Node} (hb : LockBlock plan r false ns) (ha : LockAll plan r ns) :
    LockField plan r (.many ns) := by
  intro hown
  rw [Field.ids_many] at hown
  rw [visitField]
  split
  next =>
    refine ((hb hown).within fun ns ↦ (Field.rename_many ns).symm).bind fun slots ↦ .pure ?_
    rw [finished_rename, Field.rename_many]
  next => exact ((ha hown).within fun ns ↦ (Field.rename_many ns).symm).bind fun ns ↦ .pure (Field.rename_many ns).symm

theorem lockField_atom {f : Field} (h : isAtom f = true) : LockField plan r f := by
  intro hown
  cases f with
  | child n => cases h
  | many ns => cases h
  | _ =>
    rw [visitField]
    all_goals first | exact .pure (r.rename_field hown).symm | simp

/-! ## Trees -/

mutual
/-- What a walk does to a tree it does in every place. -/
theorem lock : ∀ n : Node, LockNode plan r n
  | .gap => fun _ ↦ .pure Node.rename_gap.symm
  | .mk i c p fs => by
    cases hrule : hasRule c fs with
    | false => exact lock_plain hrule (lockFields c.fieldNames fs)
    | true =>
      unfold hasRule at hrule
      split at hrule
      · exact lock_module (lockBlock true _)
      · exact lock_classDef (lockAll _) (lockAll _) (lockAll _) (lockBlock true _)
      · exact lock_functionDef (lockAll _) (lock _) (lockBlock true _)
      · exact lock_lambda (lock _) (lock _)
      · exact lock_ifStmt (lockChain i p _)
      · exact lock_ifExp (lock _) (lock _) (lock _)
      · exact lock_boolOp (lockOperands _)
      · exact lock_matchStmt (lock _) (lockCases _)
      · exact lock_whileLoop (lock _) (lockBlock false _) (lockBlock false _)
      · exact lock_forLoop (lock _) (lock _) (lockBlock false _) (lockBlock false _)
      · exact lock_tryStmt (lockBlock false _) (lockHandlers _) (lockBlock false _) (lockBlock false _)
      · cases hrule
termination_by n => sizeOf n

theorem lockChain (i : NodeId) (p : Place) (fs : List Field) : LockChain plan r i p fs := by
  cases hlink : isLink (.mk i .ifStmt p fs) with
  | false => exact lockChain_other hlink
  | true =>
    unfold isLink at hlink
    split at hlink
    next test body orelse heq =>
      cases heq
      refine lockChain_cons (lock test) (lockBlock false body) (lockBlock false orelse) ?_
      rintro j q fs rfl
      exact lockChain j q fs
    next => cases hlink
termination_by sizeOf fs

theorem lockBlock (doc : Bool) : ∀ ns : List Node, LockBlock plan r doc ns
  | [] => fun _ ↦ by
    rw [visitBlock]
    exact .pure rfl
  | s :: rest => lockBlock_cons (lock s) (lockBlock false rest)
termination_by ns => sizeOf ns

theorem lockAll : ∀ ns : List Node, LockAll plan r ns
  | [] => fun _ ↦ by
    rw [visitAll]
    exact .pure renameNodes_nil.symm
  | n :: ns => lockAll_cons (lock n) (lockAll ns)
termination_by ns => sizeOf ns

theorem lockOperands : ∀ vs : List Node, LockOperands plan r vs
  | [] => fun _ keys ↦ by
    rw [visitOperands]
    · exact .pure rfl
    · simp
  | v :: vs => lockOperands_cons (lock v) (lockOperands vs)
termination_by vs => sizeOf vs

theorem lockCases (cs : List Node) : LockCases plan r cs := by
  cases hstarts : startsWithHandler cs with
  | false => exact lockCases_other hstarts
  | true =>
    unfold startsWithHandler at hstarts
    split at hstarts
    next i c p pattern guard body rest =>
      exact lockCases_cons (lockField guard) (lockBlock false body) (lockCases rest)
    next => cases hstarts
termination_by sizeOf cs

theorem lockHandlers (hs : List Node) : LockHandlers plan r hs := by
  cases hstarts : startsWithHandler hs with
  | false => exact lockHandlers_other hstarts
  | true =>
    unfold startsWithHandler at hstarts
    split at hstarts
    next i c p type name body rest =>
      exact lockHandlers_cons (lockField type) (lockBlock false body) (lockHandlers rest)
    next => cases hstarts
termination_by sizeOf hs

theorem lockFields (names : List String) (fs : List Field) : LockFields plan r names fs := by
  cases names with
  | nil =>
    intro hown
    rw [visitFields]
    · exact .pure (r.rename_fields hown).symm
    · simp
  | cons name names =>
    cases fs with
    | nil =>
      intro hown
      rw [visitFields]
      · exact .pure (r.rename_fields hown).symm
      · simp
    | cons f fs => exact lockFields_cons (lockField f) (lockFields names fs)
termination_by sizeOf fs

theorem lockField (f : Field) : LockField plan r f := by
  cases f with
  | child n => exact lockField_child (lock n)
  | many ns => exact lockField_many (lockBlock false ns) (lockAll ns)
  | _ => exact lockField_atom rfl
termination_by sizeOf f
end

/-! ## One walk -/

/-- The place of the walk itself. -/
def Relocation.still (own : List NodeId) : Relocation where
  own := own
  first := 0
  limit := 0
  shift := 0
  rename := id
  old _ _ := rfl
  fresh _ _ _ := rfl

/-- What a walk does to marks and asks of the record, into whatever tree it goes and whether it is stopped or not. -/
theorem moves_visit (plan : Plan) (tree : Node) (s : State) : Moves tree.ids s (outcome (visit plan tree) s).2 :=
  (lock (r := .still tree.ids) tree (List.Subset.refl _)).moves s

end Coverage.Pass
