import Mathlib.Data.List.Perm.Basic
import Coverage.Proofs.Pass.Walk
import Coverage.Proofs.Syntax.Grammar

/-!
# What is offered, node by node

The occurrences of a tree are all the nodes below its root that a pass looks at: those outside of annotations,
patterns and excluded statements. What is offered to the record for a node, as a unit or as a decision point with
arms, can be said for each occurrence by itself. A pass over a tree of the grammar offers exactly this, in
another order: no part of a node is forgotten, and none is walked twice.
-/

namespace Coverage.Pass

open Syntax Program

variable {n test : Node} {fs : List Field} {c : Plain} {ns body orelse : List Node} {i : NodeId} {p : Place}

/-! ## Occurrences -/

/-- A node of a tree, and where it stands. -/
structure Occurrence where
  node : Node
  /-- It is the first node in the body of a module, class or function. -/
  opening : Bool
  /-- It is the only node in the `else` of an `if`. -/
  alone : Bool

/-- Fields that can start with a docstring. -/
def opensBody : NodeClass → String → Bool
  | .module, name | .classDef, name | .functionDef _, name => name == "body"
  | _, _ => false

/-- Fields that can go on with an `if` chain. -/
def endsIf : NodeClass → String → Bool
  | .ifStmt, name => name == "orelse"
  | _, _ => false

mutual
/-- A node and the nodes below it, without patterns and excluded statements. -/
def occurrences (plan : Plan) (opening alone : Bool) : Node → List Occurrence
  | .gap => []
  | .mk i c p fs =>
    if c.category == .pattern || (c.isStatement && plan.excludes (.mk i c p fs)) then []
    else ⟨.mk i c p fs, opening, alone⟩ :: fieldsOccurrences plan c c.fieldNames fs

def fieldsOccurrences (plan : Plan) (c : NodeClass) : List String → List Field → List Occurrence
  | name :: names, f :: fs =>
    (if isSkippedField name then [] else fieldOccurrences plan (opensBody c name) (endsIf c name) f) ++
      fieldsOccurrences plan c names fs
  | _, _ => []

def fieldOccurrences (plan : Plan) (opening clause : Bool) : Field → List Occurrence
  | .child n => occurrences plan false false n
  | .many ns => nodesOccurrences plan opening (clause && ns.length == 1) ns
  | _ => []

def nodesOccurrences (plan : Plan) (opening alone : Bool) : List Node → List Occurrence
  | [] => []
  | n :: ns => occurrences plan opening alone n ++ nodesOccurrences plan false alone ns
end

/-- The occurrences below the root of a tree. -/
def descendants (plan : Plan) : Node → List Occurrence
  | .gap => []
  | .mk _ c _ fs => fieldsOccurrences plan c c.fieldNames fs

/-! ## What is offered -/

def isIf (n : Node) : Bool := n.cls? == some .ifStmt

/-- Whether the node goes on with the `if` chain it is in the `else` of. -/
def Occurrence.chained (o : Occurrence) : Bool := o.alone && isIf o.node

/-- Whether a statement is offered as such. -/
def Occurrence.startsUnit (o : Occurrence) : Bool :=
  o.node.isStatement && !(o.opening && o.node.isDocstring) && !o.node.isFutureImport && !o.chained

/-- The body of a function as a unit. -/
def entrySites : Node → List Site
  | .mk i (.functionDef async) p (.text name :: fs) =>
    [.unit (.entered i) .function (spanOf (.mk i (.functionDef async) p (.text name :: fs))) (some name)]
  | .mk i .lambda p fs => [.unit (.entered i) .function (spanOf (.mk i .lambda p fs)) (some "<lambda>")]
  | _ => []

/-- The decision points among the classes. -/
def construct? : NodeClass → Option Construct
  | .ifStmt => some .ifChain
  | .ifExp => some .ternary
  | .boolOp => some .logical
  | .matchStmt => some .matchCases
  | .whileLoop => some .whileLoop
  | .forLoop _ => some .forLoop
  | .tryStmt _ => some .tryBody
  | _ => none

def endsWithDefault (cases : List Node) : Bool := (cases.getLast?.map (·.isDefaultCase)).getD false

/-- The arms of a decision point. -/
def armsOf (plan : Plan) : Node → List (Event × Span)
  | .mk i .ifStmt p fs =>
    (chainEvents plan {} (.mk i .ifStmt p fs)).zip (spansOf (chainArms plan {} (.mk i .ifStmt p fs)))
  | .mk i .ifExp _ [_, .child body, .child orelse] => numbered i 0 [spanOf body, spanOf orelse]
  | .mk i .boolOp _ [_, .many values] => numbered i 0 (spansOf (values.mapM locate))
  | .mk i .matchStmt _ [.child subject, .many cases] =>
    numbered i 0 (spansOf (matchArms subject cases (endsWithDefault cases)))
  | .mk i .whileLoop _ [.child test, .many body, .many orelse] => numbered i 0 (spansOf (loopArms test body orelse))
  | .mk i (.forLoop _) _ [_, .child iter, .many body, .many orelse, _] =>
    numbered i 0 (spansOf (loopArms iter body orelse))
  | .mk i (.tryStmt _) _ [.many body, .many handlers, _, .many finalbody] =>
    numbered i 0 (spansOf (tryArms body handlers finalbody))
  | _ => []

/-- A decision point with its arms. -/
def forkSites (plan : Plan) (n : Node) : List Site :=
  match n.cls? >>= construct? with
  | none => []
  | some construct => [.fork construct (spanOf n) (armsOf plan n)]

/-- What is offered for an occurrence: a statement as a unit, the body of a function as a unit, and a decision
point with its arms, unless it is a link of a chain. -/
def Occurrence.registrations (plan : Plan) (o : Occurrence) : List Site :=
  (if o.startsUnit then startSites o.node else []) ++ entrySites o.node ++
    (if o.chained then [] else forkSites plan o.node)

def offered (plan : Plan) (os : List Occurrence) : List Site := os.flatMap (·.registrations plan)

/-- What is offered for all occurrences below the root of a tree. -/
def registrations (plan : Plan) (tree : Node) : List Site := offered plan (descendants plan tree)

/-! ## The sites of a tree that are offered -/

def Site.isOffer : Site → Bool
  | .unit .. | .fork .. => true
  | .quiet _ | .silent _ => false

def offers (sites : List Site) : List Site := sites.filter Site.isOffer

@[simp]
theorem offers_nil : offers [] = [] := rfl

@[simp]
theorem offers_append (a b : List Site) : offers (a ++ b) = offers a ++ offers b := List.filter_append ..

@[simp]
theorem offers_unit (event : Event) (kind : Kind) (span : Span) (name : Option String) (rest : List Site) :
    offers (.unit event kind span name :: rest) = .unit event kind span name :: offers rest := rfl

@[simp]
theorem offers_fork (construct : Construct) (span : Span) (arms : List (Event × Span)) (rest : List Site) :
    offers (.fork construct span arms :: rest) = .fork construct span arms :: offers rest := rfl

@[simp]
theorem offers_quiet (event : Event) (rest : List Site) : offers (.quiet event :: rest) = offers rest := rfl

@[simp]
theorem offers_hush (ids : List NodeId) : offers (hush ids) = [] := by
  induction ids with
  | nil => rfl
  | cons i ids ih => exact ih

/-! ## Occurrence by occurrence -/

section Offers

variable {plan : Plan} {full : Bool} {cat : Category}

@[simp]
theorem offered_nil : offered plan [] = [] := rfl

@[simp]
theorem offered_cons (o : Occurrence) (os : List Occurrence) :
    offered plan (o :: os) = o.registrations plan ++ offered plan os := rfl

@[simp]
theorem offered_append (os os' : List Occurrence) :
    offered plan (os ++ os') = offered plan os ++ offered plan os' := List.flatMap_append ..

/-- What is offered for a node apart from its start as a statement. -/
def ownSites (plan : Plan) (n : Node) : List Site := entrySites n ++ forkSites plan n

section

variable (plan)

/-- The walk into a node offers what is offered for the node and those below it. -/
def Offers (n : Node) : Prop :=
  (offers (sites plan {} n)).Perm (ownSites plan n ++ offered plan (descendants plan n))

def OffersChild (n : Node) : Prop := (offers (sites plan {} n)).Perm (offered plan (occurrences plan false false n))

def OffersAll (ns : List Node) : Prop :=
  (offers (allSites plan {} ns)).Perm (offered plan (nodesOccurrences plan false false ns))

def OffersBlock (doc : Bool) (ns : List Node) : Prop :=
  (offers (blockSites plan {} doc ns)).Perm (offered plan (nodesOccurrences plan doc false ns))

def OffersCases (cs : List Node) : Prop :=
  (offers (caseSites plan {} cs)).Perm (offered plan (nodesOccurrences plan false false cs))

def OffersHandlers (hs : List Node) : Prop :=
  (offers (handlerSites plan {} hs)).Perm (offered plan (nodesOccurrences plan false false hs))

def OffersField (f : Field) : Prop :=
  (offers (fieldSites plan {} f)).Perm (offered plan (fieldOccurrences plan false false f))

def OffersFields (c : Plain) (names : List String) (fs : List Field) : Prop :=
  (offers (fieldsSites plan {} names fs)).Perm (offered plan (fieldsOccurrences plan (.plain c) names fs))

/-- The walk along an `if` chain offers what is offered for the nodes below its first link. -/
def OffersChain (i : NodeId) (p : Place) (fs : List Field) : Prop :=
  (offers (chainSites plan {} i fs)).Perm (offered plan (descendants plan (.mk i .ifStmt p fs)))

end

theorem contains_empty (i : NodeId) : ¬({} : Marks).contains i = true := Bool.false_ne_true

/-- A node that is neither a statement nor a pattern is offered in the same way wherever it stands. -/
theorem offered_occurrences (h : n.isA full cat = true) (hcat : cat.inner = true) (opening : Bool) :
    offered plan (occurrences plan opening false n) = ownSites plan n ++ offered plan (descendants plan n) := by
  obtain ⟨-, hstatement, hpattern⟩ := Category.inner_iff.1 hcat
  cases n with
  | gap => simp [Node.isA] at h
  | mk i c p fs =>
    have hstmt : c.isStatement = false := not_isStatement_of_isA h hstatement
    have hc : (c.category == .pattern) = false := by simpa [(isA_mk.1 h).1] using hpattern
    simp [occurrences, hc, hstmt, Occurrence.registrations, Occurrence.startsUnit, Occurrence.chained,
      Node.isStatement, Node.cls?, descendants, ownSites]

theorem Offers.child (h : Offers plan n) (hn : n.isA full cat = true) (hcat : cat.inner = true) :
    OffersChild plan n := by
  unfold OffersChild
  rw [offered_occurrences hn hcat]
  exact h

/-! ### Fields without nodes -/

theorem fieldOccurrences_atom {f : Field} (h : f.fits full .atom = true) (opening clause : Bool) :
    fieldOccurrences plan opening clause f = [] := by
  cases f with
  | child n => simp [Field.fits] at h
  | many ns =>
    obtain rfl : ns = [] := by simpa [Field.fits] using h
    rfl
  | _ => rfl

/-- Nothing occurs in fields without nodes. -/
theorem fieldsOccurrences_atoms {contents : List Content} {c : NodeClass} {names : List String}
    (h : fieldsFit full contents fs = true) (hatoms : ∀ content ∈ contents, content = .atom) :
    fieldsOccurrences plan c names fs = [] := by
  induction contents generalizing fs names with
  | nil =>
    obtain rfl := fieldsFit_nil.1 h
    cases names <;> rfl
  | cons content contents ih =>
    obtain ⟨f, rest, rfl, hf, hrest⟩ := fieldsFit_cons.1 h
    cases names with
    | nil => rfl
    | cons name names =>
      have hatom : content = .atom := hatoms content (by simp)
      have hothers : ∀ content ∈ contents, content = .atom := fun content hc ↦ hatoms content (by simp [hc])
      simp [fieldsOccurrences, ih hrest hothers, fieldOccurrences_atom (hatom ▸ hf)]

theorem registrations_plain (h : (NodeClass.plain c).isStatement = false) (i : NodeId) (p : Place)
    (fs : List Field) (opening alone : Bool) :
    Occurrence.registrations plan ⟨.mk i (.plain c) p fs, opening, alone⟩ = [] := by
  simp [Occurrence.registrations, Occurrence.startsUnit, Occurrence.chained, isIf, Node.isStatement, Node.cls?, h,
    entrySites, forkSites, construct?]

/-- For imported names and ignored types nothing is offered. -/
theorem offered_leaf (h : n.isA full cat = true) (hcat : cat = .imported ∨ cat = .typeIgnore)
    (opening alone : Bool) : offered plan (occurrences plan opening alone n) = [] := by
  cases n with
  | gap => rfl
  | mk i c p fs =>
    obtain ⟨hc, hfs⟩ := isA_mk.1 h
    obtain ⟨hclass, hatoms⟩ : (c = .plain .aliasName ∨ c = .plain .typeIgnore) ∧
        ∀ content ∈ c.contents, content = .atom := leaf_of_category (by simpa [hc] using hcat)
    have hnone : fieldsOccurrences plan c c.fieldNames fs = [] := fieldsOccurrences_atoms hfs hatoms
    have hstmt : c.isStatement = false := not_isStatement_of_isA h (by rcases hcat with rfl | rfl <;> decide)
    rw [occurrences]
    split
    · rfl
    · rcases hclass with rfl | rfl <;> rw [offered_cons, hnone, registrations_plain hstmt, offered_nil, List.append_nil]

theorem offered_leaves (h : nodesAre full false cat ns = true)
    (hcat : cat = .imported ∨ cat = .typeIgnore) (opening alone : Bool) :
    offered plan (nodesOccurrences plan opening alone ns) = [] := by
  induction ns generalizing opening with
  | nil => rfl
  | cons n ns ih =>
    obtain ⟨hn, hns⟩ := nodesAre_cons.1 h
    have hn : n.isA full cat = true := by simpa using hn
    simp [nodesOccurrences, offered_leaf hn hcat, ih hns]

theorem offered_symbol (h : n.isA full .symbol = true) : offered plan (occurrences plan false false n) = [] := by
  cases n with
  | gap => rfl
  | mk i c p fs =>
    obtain ⟨hc, hfs⟩ := isA_mk.1 h
    obtain ⟨op, rfl, hcontents⟩ := symbol_of_category hc
    rw [hcontents] at hfs
    rw [offered_occurrences h rfl, descendants, fieldsOccurrences_atoms hfs (by simp)]
    simp [ownSites, entrySites, forkSites, construct?, Node.cls?]

/-! ### Nodes -/

section Nodes

attribute [local simp] descendants fieldsOccurrences fieldOccurrences isSkippedField opensBody endsIf
  NodeClass.fieldNames NodeClass.table Node.cls? ownSites entrySites forkSites construct? armsOf

theorem offers_lambda {args body : Node} (ha : OffersChild plan args)
    (hb : OffersChild plan body) : Offers plan (.mk i .lambda p [.child args, .child body]) := by
  have hdown : descendants plan (.mk i .lambda p [.child args, .child body]) =
      occurrences plan false false args ++ occurrences plan false false body := by
    simp
  unfold Offers
  rw [hdown, sites, if_neg (contains_empty i)]
  simpa using ha.append hb

theorem offers_ifExp {body orelse : Node} (ht : OffersChild plan test)
    (hb : OffersChild plan body) (ho : OffersChild plan orelse) :
    Offers plan (.mk i .ifExp p [.child test, .child body, .child orelse]) := by
  have hdown : descendants plan (.mk i .ifExp p [.child test, .child body, .child orelse]) =
      occurrences plan false false test ++
        (occurrences plan false false body ++ occurrences plan false false orelse) := by
    simp
  unfold Offers
  rw [hdown, sites, if_neg (contains_empty i)]
  simpa using ht.append (hb.append ho)

theorem offers_boolOp {op : Node} {values : List Node}
    (hop : offered plan (occurrences plan false false op) = []) (hvs : OffersAll plan values) :
    Offers plan (.mk i .boolOp p [.child op, .many values]) := by
  have hdown : descendants plan (.mk i .boolOp p [.child op, .many values]) =
      occurrences plan false false op ++ nodesOccurrences plan false false values := by
    simp
  unfold Offers
  rw [hdown, sites, if_neg (contains_empty i)]
  unfold OffersAll at hvs
  simpa [hop] using hvs

theorem offers_whileLoop
    (ht : OffersChild plan test) (hb : OffersBlock plan false body) (ho : OffersBlock plan false orelse) :
    Offers plan (.mk i .whileLoop p [.child test, .many body, .many orelse]) := by
  have hdown : descendants plan (.mk i .whileLoop p [.child test, .many body, .many orelse]) =
      occurrences plan false false test ++
        (nodesOccurrences plan false false body ++ nodesOccurrences plan false false orelse) := by
    simp
  unfold Offers
  rw [hdown, sites, if_neg (contains_empty i)]
  simpa using ht.append (hb.append ho)

theorem offers_forLoop {async : Bool} {target iter : Node}
    {comment : Field} (ht : OffersChild plan target) (hs : OffersChild plan iter)
    (hb : OffersBlock plan false body) (ho : OffersBlock plan false orelse)
    (hcomment : comment.fits full .atom = true) :
    Offers plan (.mk i (.forLoop async) p [.child target, .child iter, .many body, .many orelse, comment]) := by
  have hdown : descendants plan
      (.mk i (.forLoop async) p [.child target, .child iter, .many body, .many orelse, comment]) =
      occurrences plan false false target ++ (occurrences plan false false iter ++
        (nodesOccurrences plan false false body ++ nodesOccurrences plan false false orelse)) := by
    simp [fieldOccurrences_atom hcomment]
  unfold Offers
  rw [hdown, sites, if_neg (contains_empty i)]
  simpa using ht.append (hs.append (hb.append ho))

theorem offers_tryStmt {star : Bool} {handlers finalbody : List Node}
    (hb : OffersBlock plan false body) (hh : OffersHandlers plan handlers) (ho : OffersBlock plan false orelse)
    (hf : OffersBlock plan false finalbody) :
    Offers plan (.mk i (.tryStmt star) p [.many body, .many handlers, .many orelse, .many finalbody]) := by
  have hdown : descendants plan (.mk i (.tryStmt star) p [.many body, .many handlers, .many orelse, .many finalbody]) =
      nodesOccurrences plan false false body ++ (nodesOccurrences plan false false handlers ++
        (nodesOccurrences plan false false orelse ++ nodesOccurrences plan false false finalbody)) := by
    simp
  unfold Offers
  rw [hdown, sites, if_neg (contains_empty i)]
  simpa using hb.append (hh.append (ho.append hf))

theorem offers_matchStmt {subject : Node} {cases : List Node}
    (hs : OffersChild plan subject) (hcs : OffersCases plan cases) :
    Offers plan (.mk i .matchStmt p [.child subject, .many cases]) := by
  have hdown : descendants plan (.mk i .matchStmt p [.child subject, .many cases]) =
      occurrences plan false false subject ++ nodesOccurrences plan false false cases := by
    simp
  have hquiet : offers (if (cases.getLast?.map (·.isDefaultCase)).getD false = true then
      [.quiet (.took i cases.length)] else []) = [] := by
    split <;> rfl
  unfold Offers
  rw [hdown, sites, if_neg (contains_empty i)]
  simpa [hquiet, endsWithDefault] using hs.append hcs

/-- The decorators of a definition come first in a walk, and late among its fields. -/
theorem perm_rotate {a b c : List Site} : (a ++ (b ++ c)).Perm (b ++ (c ++ a)) := by
  rw [← List.append_assoc b]
  exact List.perm_append_comm

theorem offers_functionDef {async : Bool} {name : String} {args : Node}
    {decorators : List Node} {returns comment : Field} (ha : OffersChild plan args)
    (hb : OffersBlock plan true body) (hds : OffersAll plan decorators) (hcomment : comment.fits full .atom = true) :
    Offers plan (.mk i (.functionDef async) p
      [.text name, .child args, .many body, .many decorators, returns, comment]) := by
  have hdown : descendants plan (.mk i (.functionDef async) p
      [.text name, .child args, .many body, .many decorators, returns, comment]) =
      occurrences plan false false args ++
        (nodesOccurrences plan true false body ++ nodesOccurrences plan false false decorators) := by
    simp [fieldOccurrences_atom hcomment]
  have hparts := hds.append (ha.append hb)
  unfold Offers
  rw [hdown, sites, if_neg (contains_empty i)]
  simpa using hparts.trans perm_rotate

theorem offers_classDef {name : Field} {bases keywords decorators : List Node}
    (hname : name.fits full .atom = true) (hbs : OffersAll plan bases) (hks : OffersAll plan keywords)
    (hb : OffersBlock plan true body) (hds : OffersAll plan decorators) :
    Offers plan (.mk i .classDef p [name, .many bases, .many keywords, .many body, .many decorators]) := by
  have hdown : descendants plan
      (.mk i .classDef p [name, .many bases, .many keywords, .many body, .many decorators]) =
      nodesOccurrences plan false false bases ++ (nodesOccurrences plan false false keywords ++
        (nodesOccurrences plan true false body ++ nodesOccurrences plan false false decorators)) := by
    simp [fieldOccurrences_atom hname]
  have hparts := hds.append ((hbs.append hks).append hb)
  unfold Offers
  rw [hdown, sites, if_neg (contains_empty i)]
  simpa using hparts.trans perm_rotate

theorem offers_ifStmt (h : OffersChain plan i p fs) : Offers plan (.mk i .ifStmt p fs) := by
  unfold OffersChain at h
  unfold Offers
  rw [sites, if_neg (contains_empty i)]
  simpa using h

theorem offers_plain
    (h : OffersFields plan c (NodeClass.plain c).fieldNames fs) : Offers plan (.mk i (.plain c) p fs) := by
  unfold OffersFields at h
  unfold Offers
  rw [sites_of_not_hasRule rfl rfl, descendants]
  simpa using h

end Nodes

/-! ### Chains -/

theorem descendants_ifStmt : descendants plan (.mk i .ifStmt p [.child test, .many body, .many orelse]) =
      occurrences plan false false test ++
        (nodesOccurrences plan false false body ++ nodesOccurrences plan false (orelse.length == 1) orelse) := by
  simp [descendants, fieldsOccurrences, fieldOccurrences, NodeClass.fieldNames, NodeClass.table, isSkippedField,
    opensBody, endsIf]

/-- In a clause that does not go on with the chain, a node alone is offered like any other. -/
theorem offered_clause (horelse : nodesAre full false .statement orelse = true)
    (hlast : hasNextLink plan {} orelse = false) :
    offered plan (nodesOccurrences plan false (orelse.length == 1) orelse) =
      offered plan (nodesOccurrences plan false false orelse) := by
  match orelse with
  | [] => rfl
  | _ :: _ :: _ => rfl
  | [.gap] => rfl
  | [.mk j c q fs] =>
    cases hc : isIf (.mk j c q fs) with
    | false =>
      simp [nodesOccurrences, occurrences]
      split <;> simp [Occurrence.registrations, Occurrence.startsUnit, Occurrence.chained, hc]
    | true =>
      -- An `if` alone that is not the next link is excluded.
      obtain rfl : c = .ifStmt := by simpa [isIf, Node.cls?] using hc
      have hfit : fieldsFit full NodeClass.ifStmt.contents fs = true :=
        (isA_mk.1 (by simpa using (nodesAre_cons.1 horelse).1)).2
      have hexcluded : plan.excludes (.mk j .ifStmt q fs) = true := by
        cases shape_of_fits hfit with
        | ifStmt => simpa [hasNextLink, continues, isLink, Marks.holds, Marks.contains] using hlast
      simp [nodesOccurrences, occurrences, hexcluded, NodeClass.isStatement, NodeClass.role, NodeClass.table]

theorem offersChain_last
    (horelse : nodesAre full false .statement orelse = true) (hlast : hasNextLink plan {} orelse = false)
    (ht : OffersChild plan test) (hb : OffersBlock plan false body) (ho : OffersBlock plan false orelse) :
    OffersChain plan i p [.child test, .many body, .many orelse] := by
  unfold OffersChain
  rw [chainSites_last hlast, descendants_ifStmt]
  simpa [offered_clause horelse hlast] using ht.append (hb.append ho)

/-- The next link of a chain is offered with its chain. -/
theorem offersChain_link {j : NodeId} {q : Place}
    (hnext : continues plan {} (.mk j .ifStmt q fs) = true) (ht : OffersChild plan test)
    (hb : OffersBlock plan false body) (hn : OffersChain plan j q fs) :
    OffersChain plan i p [.child test, .many body, .many [.mk j .ifStmt q fs]] := by
  have hfree : plan.excludes (.mk j .ifStmt q fs) = false := by
    have := hnext
    simp only [continues, Bool.and_eq_true, Bool.not_eq_true'] at this
    exact this.2
  have hlink : offered plan (nodesOccurrences plan false true [.mk j .ifStmt q fs]) =
      offered plan (descendants plan (.mk j .ifStmt q fs)) := by
    simp [nodesOccurrences, occurrences, hfree, descendants, Occurrence.registrations, Occurrence.startsUnit,
      Occurrence.chained, isIf, Node.cls?, entrySites, NodeClass.category, NodeClass.grammar]
  unfold OffersChain
  rw [chainSites_next hnext, descendants_ifStmt]
  simpa [hlink] using ht.append (hb.append hn)

/-! ### Lists and fields -/

theorem offersAll_nil : OffersAll plan [] := .nil

theorem offersAll_cons (hn : OffersChild plan n) (hns : OffersAll plan ns) : OffersAll plan (n :: ns) := by
  unfold OffersAll
  rw [allSites, nodesOccurrences, offers_append, offered_append]
  exact hn.append hns

/-- Nothing is offered for a docstring or an import from `__future__`, nor below it. -/
theorem offered_passed {s : Node} (hs : s.isA full .statement = true)
    (h : (s.isDocstring || s.isFutureImport) = true) :
    ownSites plan s = [] ∧ offered plan (descendants plan s) = [] := by
  unfold Node.isDocstring Node.isFutureImport at h
  split at h
  next i p j q text rest rest' =>
    have hfit := (isA_mk.1 hs).2
    simp only [NodeClass.contents, NodeClass.grammar, Plain.grammar, fieldsFit_cons, fieldsFit_nil, fits_one] at hfit
    obtain ⟨_, _, heq, ⟨n, rfl, hn⟩, rfl⟩ := hfit
    cases heq
    have hnone : fieldsOccurrences plan (.plain .constant) (NodeClass.plain .constant).fieldNames
        (.constant (.str text) :: rest) = [] :=
      fieldsOccurrences_atoms (isA_mk.1 hn).2 (by simp [NodeClass.contents, NodeClass.grammar, Plain.grammar])
    have hleaf : offered plan (occurrences plan false false
        (.mk j (.plain .constant) q (.constant (.str text) :: rest))) = [] := by
      rw [offered_occurrences hn rfl, descendants, hnone]
      rfl
    refine ⟨rfl, ?_⟩
    simpa [descendants, fieldsOccurrences, fieldOccurrences, NodeClass.fieldNames, NodeClass.table, Plain.table,
      isSkippedField] using hleaf
  next =>
    split at h
    next i p m rest =>
      have hfit := (isA_mk.1 hs).2
      simp only [NodeClass.contents, NodeClass.grammar, Plain.grammar, fieldsFit_cons, fieldsFit_nil,
        fits_list] at hfit
      obtain ⟨_, _, heq, -, _, _, rfl, ⟨names, rfl, -, hnames⟩, level, _, rfl, hlevel, rfl⟩ := hfit
      cases heq
      refine ⟨rfl, ?_⟩
      simp [descendants, fieldsOccurrences, fieldOccurrences, NodeClass.fieldNames, NodeClass.table, Plain.table,
        isSkippedField, opensBody, endsIf, fieldOccurrences_atom hlevel, offered_leaves hnames (.inl rfl)]
    next => cases h

theorem offersBlock_nil {doc : Bool} : OffersBlock plan doc [] := .nil

/-- A statement that is passed over offers nothing. -/
theorem offersBlock_cons {doc : Bool} {s : Node} {rest : List Node} (hs : s.isA full .statement = true)
    (h : Offers plan s) (hrest : OffersBlock plan false rest) : OffersBlock plan doc (s :: rest) := by
  unfold OffersBlock
  rw [blockSites, nodesOccurrences, offers_append, offered_append]
  refine List.Perm.append ?_ hrest
  cases s with
  | gap => simp [Node.isA] at hs
  | mk i c p fs =>
    have hstmt : c.isStatement = true := isStatement_of_isA hs
    have hc : (c.category == .pattern) = false := by simp [(isA_mk.1 hs).1]
    cases hex : plan.excludes (.mk i c p fs) with
    | true => simp [passesOver, hex, occurrences, hstmt]
    | false =>
      have hoccurs : occurrences plan doc false (.mk i c p fs) =
          ⟨.mk i c p fs, doc, false⟩ :: descendants plan (.mk i c p fs) := by
        simp [occurrences, hc, hex, descendants]
      rw [hoccurs, offered_cons]
      have hregistrations : Occurrence.registrations plan ⟨.mk i c p fs, doc, false⟩ =
          (if passesOver plan {} doc (.mk i c p fs) then [] else startSites (.mk i c p fs)) ++
            ownSites plan (.mk i c p fs) := by
        have hstarts : Occurrence.startsUnit ⟨.mk i c p fs, doc, false⟩ = !passesOver plan {} doc (.mk i c p fs) := by
          simp [Occurrence.startsUnit, Occurrence.chained, passesOver, Marks.holds, Marks.contains, hex,
            Node.isStatement, Node.cls?, hstmt]
        rw [Occurrence.registrations, hstarts]
        cases passesOver plan {} doc (.mk i c p fs) <;> simp [Occurrence.chained, ownSites]
      rw [hregistrations]
      cases hover : passesOver plan {} doc (.mk i c p fs) with
      | true =>
        have hpassed : ((Node.mk i c p fs).isDocstring || (Node.mk i c p fs).isFutureImport) = true := by
          cases doc <;> simp_all [passesOver, Marks.holds, Marks.contains]
        obtain ⟨hown, hbelow⟩ : ownSites plan (.mk i c p fs) = [] ∧
            offered plan (descendants plan (.mk i c p fs)) = [] := offered_passed hs hpassed
        simp [hown, hbelow]
      | false =>
        unfold Offers at h
        simpa [startSites] using h

theorem offersCases_nil : OffersCases plan [] := .nil

theorem offersCases_cons {pattern : Node} {guard : Field} {rest : List Node}
    (hpattern : pattern.isA full .pattern = true) (hg : OffersField plan guard) (hb : OffersBlock plan false body)
    (hrest : OffersCases plan rest) :
    OffersCases plan (.mk i .matchCase p [.child pattern, guard, .many body] :: rest) := by
  have hskipped : occurrences plan false false pattern = [] := by
    cases pattern with
    | gap => rfl
    | mk j c q fs => simp [occurrences, (isA_mk.1 hpattern).1]
  have hcase : offered plan (occurrences plan false false (.mk i .matchCase p [.child pattern, guard, .many body])) =
      offered plan (fieldOccurrences plan false false guard) ++
        offered plan (nodesOccurrences plan false false body) := by
    simp [occurrences, hskipped, NodeClass.category, NodeClass.grammar, Occurrence.registrations,
      Occurrence.startsUnit, Occurrence.chained, Node.isStatement, Node.cls?, NodeClass.isStatement, NodeClass.role,
      NodeClass.table, NodeClass.fieldNames, entrySites, forkSites, construct?, fieldsOccurrences, fieldOccurrences,
      isSkippedField, opensBody, endsIf]
  unfold OffersCases
  rw [caseSites, nodesOccurrences, offered_append, hcase]
  simpa using (hg.append hb).append hrest

theorem offersHandlers_nil : OffersHandlers plan [] := .nil

theorem offersHandlers_cons {type name : Field} {rest : List Node}
    (ht : OffersField plan type) (hname : name.fits full .atom = true) (hb : OffersBlock plan false body)
    (hrest : OffersHandlers plan rest) : OffersHandlers plan (.mk i .handler p [type, name, .many body] :: rest) := by
  have hhandler : offered plan (occurrences plan false false (.mk i .handler p [type, name, .many body])) =
      offered plan (fieldOccurrences plan false false type) ++
        offered plan (nodesOccurrences plan false false body) := by
    simp [occurrences, NodeClass.category, NodeClass.grammar, Occurrence.registrations,
      Occurrence.startsUnit, Occurrence.chained, Node.isStatement, Node.cls?, NodeClass.isStatement, NodeClass.role,
      NodeClass.table, NodeClass.fieldNames, entrySites, forkSites, construct?, fieldsOccurrences, fieldOccurrences,
      isSkippedField, opensBody, endsIf, fieldOccurrences_atom hname]
  unfold OffersHandlers
  rw [handlerSites, nodesOccurrences, offered_append, hhandler]
  simpa using (ht.append hb).append hrest

theorem offersField_atom {f : Field} (h : f.fits full .atom = true) : OffersField plan f := by
  unfold OffersField
  rw [fieldOccurrences_atom h]
  cases f with
  | child n => simp [Field.fits] at h
  | many ns =>
    obtain rfl : ns = [] := by simpa [Field.fits] using h
    exact .nil
  | _ => exact .nil

theorem offersField_block (h : nodesAre full false .statement ns = true)
    (hns : OffersBlock plan false ns) : OffersField plan (.many ns) := by
  unfold OffersField
  rw [fieldSites, fieldOccurrences, Bool.false_and]
  split
  · exact hns
  next hstarts =>
    obtain rfl : ns = [] := Classical.not_not.1 fun hne ↦ hstarts (startsBlock_of_statements h hne)
    exact .nil

theorem offersField_all {gaps : Bool} (h : nodesAre full gaps cat ns = true)
    (hcat : cat ≠ .statement) (hns : OffersAll plan ns) : OffersField plan (.many ns) := by
  unfold OffersField
  rw [fieldSites, fieldOccurrences, Bool.false_and, if_neg (by simp [not_startsBlock_of_are h hcat])]
  exact hns

theorem offersField_child (h : OffersChild plan n) : OffersField plan (.child n) := h

theorem offersFields_nil {names : List String} : OffersFields plan c names [] := by
  cases names <;> exact .nil

theorem offersFields_beyond : OffersFields plan c [] fs := by
  cases fs <;> exact .nil

theorem offersFields_cons {name : String} {names : List String} {f : Field}
    (hf : OffersField plan f) (hfs : OffersFields plan c names fs) :
    OffersFields plan c (name :: names) (f :: fs) := by
  unfold OffersFields
  rw [fieldsSites, fieldsOccurrences, offers_append, offered_append]
  refine List.Perm.append ?_ hfs
  split
  · exact .nil
  · exact hf

/-! ### Trees -/

mutual
/-- Every node of the grammar offers what occurs in it. -/
theorem offers_of_isA {cat : Category} :
    ∀ n : Node, n.isA full cat = true → cat.walked = true → Offers plan n
  | .gap, h, _ => by simp [Node.isA] at h
  | .mk i c p fs, h, hcat => by
    obtain ⟨hc, hfs⟩ := isA_mk.1 h
    cases shape_of_fits hfs with
    | module => subst hc; cases hcat
    | matchCase => subst hc; cases hcat
    | handler => subst hc; cases hcat
    | classDef hname hbases hkeywords hsome hbody hdecorators =>
      exact offers_classDef hname (offersAll_of_are _ hbases rfl) (offersAll_of_are _ hkeywords rfl)
        (offersBlock_of_are true _ hbody) (offersAll_of_are _ hdecorators rfl)
    | functionDef hargs hsome hbody hdecorators hreturns hcomment =>
      exact offers_functionDef ((offers_of_isA _ hargs rfl).child hargs rfl) (offersBlock_of_are true _ hbody)
        (offersAll_of_are _ hdecorators rfl) hcomment
    | lambda hargs hbody =>
      exact offers_lambda ((offers_of_isA _ hargs rfl).child hargs rfl)
        ((offers_of_isA _ hbody rfl).child hbody rfl)
    | ifStmt htest hsome hbody horelse => exact offers_ifStmt (offersChain_of_fits i p _ hfs)
    | ifExp htest hbody horelse =>
      exact offers_ifExp ((offers_of_isA _ htest rfl).child htest rfl) ((offers_of_isA _ hbody rfl).child hbody rfl)
        ((offers_of_isA _ horelse rfl).child horelse rfl)
    | boolOp hop hsome hvalues => exact offers_boolOp (offered_symbol hop) (offersAll_of_are _ hvalues rfl)
    | matchStmt hsubject hsome hcases =>
      exact offers_matchStmt ((offers_of_isA _ hsubject rfl).child hsubject rfl) (offersCases_of_are _ hcases)
    | whileLoop htest hsome hbody horelse =>
      exact offers_whileLoop ((offers_of_isA _ htest rfl).child htest rfl) (offersBlock_of_are false _ hbody)
        (offersBlock_of_are false _ horelse)
    | forLoop htarget hiter hsome hbody horelse hcomment =>
      exact offers_forLoop ((offers_of_isA _ htarget rfl).child htarget rfl)
        ((offers_of_isA _ hiter rfl).child hiter rfl)
        (offersBlock_of_are false _ hbody) (offersBlock_of_are false _ horelse) hcomment
    | tryStmt hsome hbody hhandlers horelse hfinalbody =>
      exact offers_tryStmt (offersBlock_of_are false _ hbody) (offersHandlers_of_are _ hhandlers)
        (offersBlock_of_are false _ horelse) (offersBlock_of_are false _ hfinalbody)
    | plain hfs =>
      have hpattern : cat ≠ .pattern := by
        rintro rfl
        cases hcat
      exact offers_plain (offersFields_of_fit _ _ _ _ hfs (walked_contents (hc ▸ hpattern)))
termination_by n => sizeOf n
decreasing_by
  all_goals
    subst_vars
    simp only [Node.mk.sizeOf_spec, Field.child.sizeOf_spec, Field.many.sizeOf_spec, List.cons.sizeOf_spec]
    omega

theorem offersAll_of_are {gaps : Bool} {cat : Category} : ∀ ns : List Node, nodesAre full gaps cat ns = true →
    cat.inner = true → OffersAll plan ns
  | [], _, _ => offersAll_nil
  | n :: ns, h, hcat => by
    obtain ⟨hn, hns⟩ := nodesAre_cons.1 h
    rcases hn with hn | ⟨-, rfl⟩
    · have hchild : OffersChild plan n := (offers_of_isA n hn (Category.inner_iff.1 hcat).1).child hn hcat
      exact offersAll_cons hchild (offersAll_of_are ns hns hcat)
    · exact offersAll_cons .nil (offersAll_of_are ns hns hcat)
termination_by ns => sizeOf ns

theorem offersBlock_of_are (doc : Bool) :
    ∀ ns : List Node, nodesAre full false .statement ns = true → OffersBlock plan doc ns
  | [], _ => offersBlock_nil
  | s :: rest, h => by
    obtain ⟨hs, hrest⟩ := nodesAre_cons.1 h
    have hs : s.isA full .statement = true := by simpa using hs
    exact offersBlock_cons hs (offers_of_isA s hs rfl) (offersBlock_of_are false rest hrest)
termination_by ns => sizeOf ns

theorem offersChain_of_fits (i : NodeId) (p : Place) (fs : List Field)
    (h : fieldsFit full NodeClass.ifStmt.contents fs = true) : OffersChain plan i p fs := by
  cases shape_of_fits h with
  | @ifStmt test body orelse htest hsome hbody horelse =>
    cases hlast : hasNextLink plan {} orelse with
    | false =>
      exact offersChain_last horelse hlast ((offers_of_isA test htest rfl).child htest rfl)
        (offersBlock_of_are false body hbody)
        (offersBlock_of_are false orelse horelse)
    | true =>
      obtain ⟨n, rfl, hnext⟩ := hasNextLink_eq_true hlast
      obtain ⟨j, q, test', body', orelse', rfl⟩ := continues_link hnext
      have hfs := (isA_mk.1 (by simpa using (nodesAre_cons.1 horelse).1)).2
      exact offersChain_link hnext ((offers_of_isA test htest rfl).child htest rfl)
        (offersBlock_of_are false body hbody)
        (offersChain_of_fits j q _ hfs)
termination_by sizeOf fs

theorem offersCases_of_are : ∀ cs : List Node, nodesAre full false .case cs = true → OffersCases plan cs
  | [], _ => offersCases_nil
  | .gap :: rest, h => by simp [nodesAre, Node.isA] at h
  | .mk i c p fs :: rest, h => by
    obtain ⟨hn, hrest⟩ := nodesAre_cons.1 h
    obtain ⟨hc, hfs⟩ := isA_mk.1 (by simpa using hn)
    obtain rfl := class_of_category.1 hc
    cases shape_of_fits hfs with
    | matchCase hpattern hguard hsome hbody =>
      exact offersCases_cons hpattern (offersField_of_fits _ _ hguard rfl) (offersBlock_of_are false _ hbody)
        (offersCases_of_are rest hrest)
termination_by cs => sizeOf cs

theorem offersHandlers_of_are : ∀ hs : List Node, nodesAre full false .handler hs = true → OffersHandlers plan hs
  | [], _ => offersHandlers_nil
  | .gap :: rest, h => by simp [nodesAre, Node.isA] at h
  | .mk i c p fs :: rest, h => by
    obtain ⟨hn, hrest⟩ := nodesAre_cons.1 h
    obtain ⟨hc, hfs⟩ := isA_mk.1 (by simpa using hn)
    obtain rfl := class_of_category.2 hc
    cases shape_of_fits hfs with
    | handler htype hname hsome hbody =>
      exact offersHandlers_cons (offersField_of_fits _ _ htype rfl) hname (offersBlock_of_are false _ hbody)
        (offersHandlers_of_are rest hrest)
termination_by hs => sizeOf hs

theorem offersFields_of_fit (c : Plain) : ∀ (names : List String) (contents : List Content) (fs : List Field),
    fieldsFit full contents fs = true → (∀ content ∈ contents, content.walked = true) → OffersFields plan c names fs
  | _, _, [], _, _ => offersFields_nil
  | [], _, _ :: _, _, _ => offersFields_beyond
  | _ :: _, [], _ :: _, h, _ => by simp [fieldsFit] at h
  | _ :: names, content :: contents, f :: fs, h, hwalked => by
    rw [fieldsFit, Bool.and_eq_true] at h
    exact offersFields_cons (offersField_of_fits content f h.1 (hwalked content (by simp)))
      (offersFields_of_fit c names contents fs h.2 fun content hc ↦ hwalked content (by simp [hc]))
termination_by _ _ fs => sizeOf fs

theorem offersField_of_fits (content : Content) (f : Field) (h : f.fits full content = true)
    (hwalked : content.walked = true) : OffersField plan f := by
  cases content with
  | text =>
    obtain ⟨s, rfl⟩ := fits_text.1 h
    exact .nil
  | atom => exact offersField_atom h
  | one cat =>
    obtain ⟨n, rfl, hn⟩ := fits_one.1 h
    exact offersField_child ((offers_of_isA n hn (Category.inner_iff.1 hwalked).1).child hn hwalked)
  | optional cat =>
    rcases fits_optional.1 h with rfl | ⟨n, rfl, hn⟩
    · exact .nil
    · exact offersField_child ((offers_of_isA n hn (Category.inner_iff.1 hwalked).1).child hn hwalked)
  | gaps cat =>
    obtain ⟨ns, rfl, hns⟩ := fits_gaps.1 h
    exact offersField_all hns (Category.inner_iff.1 hwalked).2.1 (offersAll_of_are ns hns hwalked)
  | list cat nonempty =>
    obtain ⟨ns, rfl, -, hns⟩ := fits_list.1 h
    by_cases hcat : cat = .statement
    · subst hcat
      exact offersField_block hns (offersBlock_of_are false ns hns)
    · have hinner : cat.inner = true := Bool.and_eq_true_iff.2 ⟨hwalked, by simpa using hcat⟩
      exact offersField_all hns hcat (offersAll_of_are ns hns hinner)
termination_by sizeOf f
end

end Offers
/-- A pass over a module offers what is offered for the nodes below it. -/
theorem perm_offers_module {plan : Plan} {full : Bool} {j : NodeId} {place : Place}
    (h : (Node.mk j .module place fs).isA full .root = true) :
    (offers (sites plan {} (.mk j .module place fs))).Perm (registrations plan (.mk j .module place fs)) := by
  cases shape_of_fits (isA_mk.1 h).2 with
  | module hbody hignores =>
    have hblock : OffersBlock plan true _ := offersBlock_of_are true _ hbody
    unfold OffersBlock at hblock
    rw [sites, if_neg (contains_empty j)]
    simpa [registrations, descendants, fieldsOccurrences, fieldOccurrences, NodeClass.fieldNames, NodeClass.table,
      isSkippedField, opensBody, endsIf, offered_leaves hignores (.inr rfl)] using hblock

end Coverage.Pass
