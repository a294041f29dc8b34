import Coverage.Proofs.Pass.Arms
import Coverage.Proofs.Pass.Woven
import Coverage.Proofs.Syntax.Nodes

/-!
# The statements that a walk offers

In a tree of the grammar a walk offers statements only, and it offers them in the order in which they stand in the tree:
the sites of statements are found in the list of all statements, without some of them. The lists that a walk visits
before or after their turn hold expressions, in which there is no statement.
-/

namespace Coverage.Pass

open Syntax Program

variable {ns body orelse : List Node} {fs : List Field}

/-! ## Statements and their sites -/

def Site.statement? : Site → Option (Event × Span)
  | .unit event .statement span _ => some (event, span)
  | _ => none

def statementSites (sites : List Site) : List (Event × Span) := sites.filterMap Site.statement?

def statementStart? (n : Node) : Option (Event × Span) :=
  if n.isStatement then n.id?.map fun i ↦ (.started i, spanOf n) else none

def starts (ns : List Node) : List (Event × Span) := ns.filterMap statementStart?

section Lists

variable {plan : Plan} {marks : Marks}

@[simp]
theorem statementSites_nil : statementSites [] = [] := rfl

@[simp]
theorem statementSites_append (a b : List Site) :
    statementSites (a ++ b) = statementSites a ++ statementSites b := List.filterMap_append ..

@[simp]
theorem statementSites_function (event : Event) (span : Span) (name : Option String) (a : List Site) :
    statementSites (.unit event .function span name :: a) = statementSites a := rfl

@[simp]
theorem statementSites_fork (construct : Construct) (span : Span) (arms : List (Event × Span)) (a : List Site) :
    statementSites (.fork construct span arms :: a) = statementSites a := rfl

@[simp]
theorem statementSites_quiet (event : Event) (a : List Site) :
    statementSites (.quiet event :: a) = statementSites a := rfl

@[simp]
theorem statementSites_silent (i : NodeId) (a : List Site) : statementSites (.silent i :: a) = statementSites a := rfl

@[simp]
theorem statementSites_hush (ids : List NodeId) : statementSites (hush ids) = [] := by
  induction ids with
  | nil => rfl
  | cons i ids ih => exact ih

@[simp]
theorem starts_nil : starts [] = [] := rfl

@[simp]
theorem starts_append (ns ms : List Node) : starts (ns ++ ms) = starts ns ++ starts ms := List.filterMap_append ..

theorem starts_eq_nil (h : ∀ n ∈ ns, n.isStatement = false) : starts ns = [] := by
  refine List.filterMap_eq_nil_iff.2 fun n hn ↦ ?_
  rw [statementStart?, h n hn]
  rfl

/-- A start belongs to a statement. -/
theorem mem_starts {i : NodeId} {span : Span} (h : (.started i, span) ∈ starts ns) :
    ∃ s ∈ ns, s.isStatement = true ∧ s.id? = some i ∧ spanOf s = span := by
  obtain ⟨s, hs, hstart⟩ := List.mem_filterMap.1 h
  unfold statementStart? at hstart
  split at hstart
  next hstatement =>
    obtain ⟨j, hj, heq⟩ := Option.map_eq_some_iff.1 hstart
    cases heq
    exact ⟨s, hs, hstatement, hj, rfl⟩
  next => cases hstart

/-- In an expression, and in whatever else no statement stands below, nothing starts. -/
theorem starts_nodes_eq_nil {full : Bool} {cat : Category} {n : Node} (h : n.isA full cat = true)
    (hcat : cat.holdsStatements = false) : starts n.nodes = [] :=
  starts_eq_nil (not_isStatement_of_mem_nodes h hcat)

theorem starts_nodesNodes_eq_nil {full gaps : Bool} {cat : Category}
    (h : nodesAre full gaps cat ns = true) (hcat : cat.holdsStatements = false) : starts (nodesNodes ns) = [] := by
  induction ns with
  | nil => rfl
  | cons n ns ih =>
    obtain ⟨hn, hns⟩ := nodesAre_cons.1 h
    rw [nodesNodes, starts_append, ih hns, List.append_nil]
    rcases hn with hn | ⟨-, rfl⟩
    · exact starts_nodes_eq_nil hn hcat
    · rfl

/-- A field of atoms, or of what no statement stands below. -/
theorem starts_field_eq_nil {full : Bool} {content : Content} {f : Field} (h : f.fits full content = true)
    (hcat : content.category?.all (fun cat ↦ !cat.holdsStatements) = true) :
    starts (f.children.flatMap Node.nodes) = [] := by
  refine starts_eq_nil fun n hn ↦ ?_
  obtain ⟨m, hm, hn⟩ := List.mem_flatMap.1 hn
  rcases isA_of_mem_field h hm with rfl | ⟨cat, hcategory, hm⟩
  · cases hn
  · exact not_isStatement_of_mem_nodes hm (by simpa [hcategory] using hcat) n hn

end Lists

/-! ## The order of the sites -/

/-- The statements that are offered are found among the nodes, in their order. -/
def InOrder (sites : List Site) (ns : List Node) : Prop := (statementSites sites).Sublist (starts ns)

namespace InOrder

variable {a b : List Site} {ns ms : List Node}

theorem nil (ns : List Node) : InOrder [] ns := List.nil_sublist _

theorem hush (ids : List NodeId) (ns : List Node) : InOrder (hush ids) ns := by
  rw [InOrder, statementSites_hush]
  exact List.nil_sublist _

theorem append (ha : InOrder a ns) (hb : InOrder b ms) : InOrder (a ++ b) (ns ++ ms) := by
  rw [InOrder, statementSites_append, starts_append]
  exact List.Sublist.append ha hb

theorem mono (h : InOrder a ns) (sub : ns.Sublist ms) : InOrder a ms := h.trans (sub.filterMap _)

/-- Where nothing starts, nothing is offered. -/
theorem none (h : InOrder a ns) (hnone : starts ns = []) : InOrder a [] := by
  rw [InOrder, hnone] at h
  exact h

theorem expression {full : Bool} {n : Node} {cat : Category} (h : InOrder a n.nodes) (hn : n.isA full cat = true)
    (hcat : cat.holdsStatements = false) : InOrder a [] :=
  h.none (starts_nodes_eq_nil hn hcat)

theorem expressions {full gaps : Bool} {cat : Category} (h : InOrder a (nodesNodes ns))
    (hns : nodesAre full gaps cat ns = true) (hcat : cat.holdsStatements = false) : InOrder a [] :=
  h.none (starts_nodesNodes_eq_nil hns hcat)

/-- What offers no statement can stand in front of anything. -/
theorem past (ha : InOrder a []) (hb : InOrder b ns) : InOrder (a ++ b) ns := ha.append hb

/-! ### Fields -/

variable {f : Field} {fs : List Field}

theorem behind (f : Field) (h : InOrder a (fieldsNodes fs)) : InOrder a (fieldsNodes (f :: fs)) := by
  rw [fieldsNodes_cons]
  exact h.mono (List.sublist_append_right _ _)

theorem field (ha : InOrder a (f.children.flatMap Node.nodes)) (hb : InOrder b (fieldsNodes fs)) :
    InOrder (a ++ b) (fieldsNodes (f :: fs)) := by
  rw [fieldsNodes_cons]
  exact ha.append hb

theorem many (ha : InOrder a (nodesNodes ns)) (hb : InOrder b (fieldsNodes fs)) :
    InOrder (a ++ b) (fieldsNodes (.many ns :: fs)) := by
  rw [fieldsNodes]
  exact ha.append hb

theorem last (ha : InOrder a (nodesNodes ns)) (fs : List Field) : InOrder a (fieldsNodes (.many ns :: fs)) := by
  rw [fieldsNodes]
  exact ha.mono (List.sublist_append_left _ _)

end InOrder

section Order

variable {plan : Plan} {marks : Marks} {full : Bool} {i : NodeId} {c : NodeClass} {p : Place}

/-! ### Nodes -/

/-- A marked node is passed by; of the others only the rule has to be looked at. -/
theorem inOrder_mk {a : List Site}
    (hsites : marks.contains i = false → sites plan marks (.mk i c p fs) = a) (h : InOrder a (fieldsNodes fs)) :
    InOrder (sites plan marks (.mk i c p fs)) (fieldsNodes fs) := by
  cases held : marks.contains i with
  | true =>
    rw [sites_of_marked held]
    exact .hush _ _
  | false =>
    rw [hsites held]
    exact h

theorem InOrder.nodes {a : List Site} {n : Node} (h : InOrder a (fieldsNodes n.fields)) : InOrder a n.nodes := by
  cases n with
  | gap => exact h
  | mk i c p fs =>
    rw [Node.nodes]
    exact h.mono (List.sublist_cons_self _ _)

theorem inOrder_classDef {name : Field} {bases keywords decorators : List Node}
    (hds : InOrder (allSites plan marks decorators) []) (hbs : InOrder (allSites plan marks bases) [])
    (hks : InOrder (allSites plan marks keywords) [])
    (hb : InOrder (blockSites plan marks true body) (nodesNodes body)) :
    InOrder (sites plan marks (.mk i .classDef p [name, .many bases, .many keywords, .many body, .many decorators]))
      (fieldsNodes [name, .many bases, .many keywords, .many body, .many decorators]) := by
  refine inOrder_mk (fun held ↦ by rw [sites, if_neg (by simp [held])]) ?_
  exact ((hds.past hbs).past hks).past ((((hb.last _).behind _).behind _).behind _)

theorem inOrder_functionDef {async : Bool} {name : String} {args : Node} {decorators : List Node}
    {returns comment : Field} (hds : InOrder (allSites plan marks decorators) [])
    (ha : InOrder (sites plan marks args) []) (hb : InOrder (blockSites plan marks true body) (nodesNodes body)) :
    InOrder
      (sites plan marks
        (.mk i (.functionDef async) p [.text name, .child args, .many body, .many decorators, returns, comment]))
      (fieldsNodes [.text name, .child args, .many body, .many decorators, returns, comment]) := by
  refine inOrder_mk (fun held ↦ by rw [sites, if_neg (by simp [held])]) ?_
  exact (hds.past ha).past (((hb.last _).behind _).behind _)

theorem inOrder_matchStmt {subject : Node} {cases : List Node} (hs : InOrder (sites plan marks subject) [])
    (hcs : InOrder (caseSites plan marks cases) (nodesNodes cases)) :
    InOrder (sites plan marks (.mk i .matchStmt p [.child subject, .many cases]))
      (fieldsNodes [.child subject, .many cases]) := by
  refine inOrder_mk (fun held ↦ by rw [sites, if_neg (by simp [held])]) ?_
  refine InOrder.past ?_ ((hcs.last _).behind _)
  refine InOrder.past ?_ hs
  split
  · exact .nil _
  · exact .nil _

theorem inOrder_whileLoop {test : Node} (ht : InOrder (sites plan marks test) [])
    (hb : InOrder (blockSites plan marks false body) (nodesNodes body))
    (ho : InOrder (blockSites plan marks false orelse) (nodesNodes orelse)) :
    InOrder (sites plan marks (.mk i .whileLoop p [.child test, .many body, .many orelse]))
      (fieldsNodes [.child test, .many body, .many orelse]) := by
  refine inOrder_mk (fun held ↦ by rw [sites, if_neg (by simp [held]), List.append_assoc]) ?_
  exact ht.past ((hb.many (ho.last _)).behind _)

theorem inOrder_forLoop {async : Bool} {target iter : Node} {comment : Field}
    (ht : InOrder (sites plan marks target) []) (hs : InOrder (sites plan marks iter) [])
    (hb : InOrder (blockSites plan marks false body) (nodesNodes body))
    (ho : InOrder (blockSites plan marks false orelse) (nodesNodes orelse)) :
    InOrder
      (sites plan marks (.mk i (.forLoop async) p [.child target, .child iter, .many body, .many orelse, comment]))
      (fieldsNodes [.child target, .child iter, .many body, .many orelse, comment]) := by
  refine inOrder_mk (fun held ↦ by rw [sites, if_neg (by simp [held]), List.append_assoc]) ?_
  exact (ht.past hs).past (((hb.many (ho.last _)).behind _).behind _)

theorem inOrder_tryStmt {star : Bool} {handlers finalbody : List Node}
    (hb : InOrder (blockSites plan marks false body) (nodesNodes body))
    (hh : InOrder (handlerSites plan marks handlers) (nodesNodes handlers))
    (ho : InOrder (blockSites plan marks false orelse) (nodesNodes orelse))
    (hf : InOrder (blockSites plan marks false finalbody) (nodesNodes finalbody)) :
    InOrder
      (sites plan marks (.mk i (.tryStmt star) p [.many body, .many handlers, .many orelse, .many finalbody]))
      (fieldsNodes [.many body, .many handlers, .many orelse, .many finalbody]) := by
  refine inOrder_mk
    (fun held ↦ by rw [sites, if_neg (by simp [held]), List.append_assoc, List.append_assoc]) ?_
  exact hb.many (hh.many (ho.many (hf.last _)))

theorem inOrder_chain_last {test : Node} (hlast : hasNextLink plan marks orelse = false)
    (ht : InOrder (sites plan marks test) []) (hb : InOrder (blockSites plan marks false body) (nodesNodes body))
    (ho : InOrder (blockSites plan marks false orelse) (nodesNodes orelse)) :
    InOrder (chainSites plan marks i [.child test, .many body, .many orelse])
      (fieldsNodes [.child test, .many body, .many orelse]) := by
  rw [chainSites_last hlast, List.append_assoc]
  exact ht.past ((hb.many (ho.last _)).behind _)

/-- A link is a statement that is not offered. -/
theorem inOrder_chain_next {j : NodeId} {q : Place} {test : Node}
    (hnext : continues plan marks (.mk j .ifStmt q fs) = true) (ht : InOrder (sites plan marks test) [])
    (hb : InOrder (blockSites plan marks false body) (nodesNodes body))
    (hrest : InOrder (chainSites plan marks j fs) (fieldsNodes fs)) :
    InOrder (chainSites plan marks i [.child test, .many body, .many [.mk j .ifStmt q fs]])
      (fieldsNodes [.child test, .many body, .many [.mk j .ifStmt q fs]]) := by
  have hlink : InOrder (.quiet (.took i 1) :: .quiet (.started j) :: chainSites plan marks j fs)
      (nodesNodes [.mk j .ifStmt q fs]) := by
    rw [nodesNodes, nodesNodes, Node.nodes, List.append_nil]
    exact hrest.mono (List.sublist_cons_self _ _)
  rw [chainSites_next hnext, List.append_assoc]
  exact ht.past ((hb.many (hlink.last _)).behind _)

/-! ### Lists -/

theorem inOrder_all_cons {n : Node} (hn : InOrder (sites plan marks n) n.nodes)
    (hns : InOrder (allSites plan marks ns) (nodesNodes ns)) :
    InOrder (allSites plan marks (n :: ns)) (nodesNodes (n :: ns)) := by
  rw [allSites, nodesNodes]
  exact hn.append hns

theorem inOrder_block_cons {doc : Bool} {rest : List Node} (hstatement : (Node.mk i c p fs).isStatement = true)
    (hs : InOrder (sites plan marks (.mk i c p fs)) (fieldsNodes fs))
    (hrest : InOrder (blockSites plan marks false rest) (nodesNodes rest)) :
    InOrder (blockSites plan marks doc (.mk i c p fs :: rest)) (nodesNodes (.mk i c p fs :: rest)) := by
  rw [blockSites, nodesNodes]
  refine InOrder.append ?_ hrest
  split
  next => exact .hush _ _
  next =>
    have hstart : InOrder (startSites (.mk i c p fs)) [.mk i c p fs] := by
      simp [InOrder, startSites, statementSites, Site.statement?, starts, statementStart?, hstatement, Node.id?]
    rw [Node.nodes, ← List.singleton_append]
    exact hstart.append hs

theorem inOrder_cases_cons {pattern guard : Field} {rest : List Node} (hg : InOrder (fieldSites plan marks guard) [])
    (hb : InOrder (blockSites plan marks false body) (nodesNodes body))
    (hrest : InOrder (caseSites plan marks rest) (nodesNodes rest)) :
    InOrder (caseSites plan marks (.mk i c p [pattern, guard, .many body] :: rest))
      (nodesNodes (.mk i c p [pattern, guard, .many body] :: rest)) := by
  rw [caseSites, nodesNodes]
  refine InOrder.append (InOrder.nodes ?_) hrest
  exact ((InOrder.hush _ _).past hg).past (((hb.last _).behind _).behind _)

theorem inOrder_handlers_cons {type name : Field} {rest : List Node} (ht : InOrder (fieldSites plan marks type) [])
    (hb : InOrder (blockSites plan marks false body) (nodesNodes body))
    (hrest : InOrder (handlerSites plan marks rest) (nodesNodes rest)) :
    InOrder (handlerSites plan marks (.mk i c p [type, name, .many body] :: rest))
      (nodesNodes (.mk i c p [type, name, .many body] :: rest)) := by
  rw [handlerSites, nodesNodes]
  exact InOrder.append (InOrder.nodes (ht.past (((hb.last _).behind _).behind _))) hrest

theorem inOrder_fields_cons {name : String} {names : List String} {f : Field}
    (hf : InOrder (fieldSites plan marks f) (f.children.flatMap Node.nodes))
    (hfs : InOrder (fieldsSites plan marks names fs) (fieldsNodes fs)) :
    InOrder (fieldsSites plan marks (name :: names) (f :: fs)) (fieldsNodes (f :: fs)) := by
  rw [fieldsSites]
  split
  next => exact (InOrder.nil _).field hfs
  next => exact hf.field hfs

/-! ### Trees -/

mutual
/-- The statements that a walk into a node of the grammar offers are statements below the node, in their order. -/
theorem inOrder_sites {cat : Category} : ∀ n : Node, n.isA full cat = true →
    InOrder (sites plan marks n) (fieldsNodes n.fields)
  | .gap, h => by simp [Node.isA] at h
  | .mk i c p fs, h => by
    have hfit := (isA_mk.1 h).2
    cases hrule : hasRule c fs with
    | false =>
      exact inOrder_mk (fun held ↦ sites_of_not_hasRule held hrule p)
        (inOrder_fieldsSites _ _ fs hfit (listsStatements_contents c))
    | true =>
      cases shape_of_fits hfit with
      | module hbody hignores =>
        exact inOrder_mk (fun held ↦ by rw [sites, if_neg (by simp [held])]) ((inOrder_blockSites true _ hbody).last _)
      | classDef hname hbases hkeywords hsome hbody hdecorators =>
        exact inOrder_classDef ((inOrder_allSites _ hdecorators).expressions hdecorators rfl)
          ((inOrder_allSites _ hbases).expressions hbases rfl)
          ((inOrder_allSites _ hkeywords).expressions hkeywords rfl)
          (inOrder_blockSites true _ hbody)
      | functionDef hargs hsome hbody hdecorators hreturns hcomment =>
        exact inOrder_functionDef ((inOrder_allSites _ hdecorators).expressions hdecorators rfl)
          ((inOrder_sites _ hargs).nodes.expression hargs rfl) (inOrder_blockSites true _ hbody)
      | lambda hargs hbody =>
        refine inOrder_mk (fun held ↦ by rw [sites, if_neg (by simp [held])]) ?_
        exact (((inOrder_sites _ hargs).nodes.expression hargs rfl).past
          ((inOrder_sites _ hbody).nodes.expression hbody rfl)).mono (List.nil_sublist _)
      | ifStmt htest hsome hbody horelse =>
        refine inOrder_mk (fun held ↦ by rw [sites, if_neg (by simp [held])]) ?_
        exact inOrder_chainSites i _ hfit
      | ifExp htest hbody horelse =>
        refine inOrder_mk (fun held ↦ by rw [sites, if_neg (by simp [held])]) ?_
        exact ((((inOrder_sites _ htest).nodes.expression htest rfl).past
          ((inOrder_sites _ hbody).nodes.expression hbody rfl)).past
            ((inOrder_sites _ horelse).nodes.expression horelse rfl)).mono (List.nil_sublist _)
      | boolOp hop hsome hvalues =>
        refine inOrder_mk (fun held ↦ by rw [sites, if_neg (by simp [held])]) ?_
        exact ((inOrder_allSites _ hvalues).expressions hvalues rfl).mono (List.nil_sublist _)
      | matchStmt hsubject hsome hcases =>
        exact inOrder_matchStmt ((inOrder_sites _ hsubject).nodes.expression hsubject rfl) (inOrder_caseSites _ hcases)
      | whileLoop htest hsome hbody horelse =>
        exact inOrder_whileLoop ((inOrder_sites _ htest).nodes.expression htest rfl) (inOrder_blockSites false _ hbody)
          (inOrder_blockSites false _ horelse)
      | forLoop htarget hiter hsome hbody horelse hcomment =>
        exact inOrder_forLoop ((inOrder_sites _ htarget).nodes.expression htarget rfl)
          ((inOrder_sites _ hiter).nodes.expression hiter rfl) (inOrder_blockSites false _ hbody)
          (inOrder_blockSites false _ horelse)
      | tryStmt hsome hbody hhandlers horelse hfinalbody =>
        exact inOrder_tryStmt (inOrder_blockSites false _ hbody) (inOrder_handlerSites _ hhandlers)
          (inOrder_blockSites false _ horelse) (inOrder_blockSites false _ hfinalbody)
      | matchCase | handler | plain => cases hrule
termination_by n => sizeOf n
decreasing_by
  all_goals
    subst_vars
    simp only [Node.mk.sizeOf_spec, Field.child.sizeOf_spec, Field.many.sizeOf_spec, List.cons.sizeOf_spec]
    omega

/-- The statements in the links of a chain start in order. -/
theorem inOrder_chainSites (i : NodeId) (fs : List Field)
    (h : fieldsFit full NodeClass.ifStmt.contents fs = true) :
    InOrder (chainSites plan marks i fs) (fieldsNodes fs) := by
  cases shape_of_fits h with
  | @ifStmt test body orelse htest hsome hbody horelse =>
    have ht := (inOrder_sites _ htest).nodes.expression htest rfl
    cases hlast : hasNextLink plan marks orelse with
    | false => exact inOrder_chain_last hlast ht (inOrder_blockSites false _ hbody) (inOrder_blockSites false _ horelse)
    | true =>
      obtain ⟨n, rfl, hnext⟩ := hasNextLink_eq_true hlast
      obtain ⟨j, q, test', body', orelse', rfl⟩ := continues_link hnext
      have hlink := ((nodesAre_cons.1 horelse).1.resolve_right (by simp))
      exact inOrder_chain_next hnext ht (inOrder_blockSites false _ hbody)
        (inOrder_chainSites j _ (isA_mk.1 hlink).2)
termination_by sizeOf fs
decreasing_by
  all_goals
    subst_vars
    simp only [Node.mk.sizeOf_spec, Field.child.sizeOf_spec, Field.many.sizeOf_spec, List.cons.sizeOf_spec]
    omega

theorem inOrder_allSites {gaps : Bool} {cat : Category} : ∀ ns : List Node, nodesAre full gaps cat ns = true →
    InOrder (allSites plan marks ns) (nodesNodes ns)
  | [], _ => by
    rw [allSites]
    exact .nil _
  | n :: ns, h => by
    obtain ⟨hn, hns⟩ := nodesAre_cons.1 h
    refine inOrder_all_cons ?_ (inOrder_allSites ns hns)
    rcases hn with hn | ⟨-, rfl⟩
    · exact (inOrder_sites n hn).nodes
    · rw [sites_gap]
      exact .nil _
termination_by ns => sizeOf ns

theorem inOrder_blockSites (doc : Bool) : ∀ ns : List Node, nodesAre full false .statement ns = true →
    InOrder (blockSites plan marks doc ns) (nodesNodes ns)
  | [], _ => by
    rw [blockSites]
    exact .nil _
  | .gap :: rest, h => by simp [nodesAre_cons, Node.isA] at h
  | .mk i c p fs :: rest, h => by
    obtain ⟨hs, hrest⟩ := nodesAre_cons.1 h
    have hs : (Node.mk i c p fs).isA full .statement = true := hs.resolve_right (by simp)
    exact inOrder_block_cons (isStatement_of_isA hs) (inOrder_sites _ hs) (inOrder_blockSites false rest hrest)
termination_by ns => sizeOf ns

theorem inOrder_caseSites : ∀ cs : List Node, nodesAre full false .case cs = true →
    InOrder (caseSites plan marks cs) (nodesNodes cs)
  | [], _ => by
    rw [caseSites]
    · exact .nil _
    · simp
  | .gap :: rest, h => by simp [nodesAre_cons, Node.isA] at h
  | .mk i c p fs :: rest, h => by
    obtain ⟨hn, hrest⟩ := nodesAre_cons.1 h
    obtain ⟨hc, hfit⟩ := isA_mk.1 (hn.resolve_right (by simp))
    obtain rfl := class_of_category.1 hc
    cases shape_of_fits hfit with
    | @matchCase pattern guard body hpattern hguard hsome hbody =>
      have hg := (inOrder_fieldSites _ guard hguard rfl).none (starts_field_eq_nil hguard rfl)
      exact inOrder_cases_cons hg (inOrder_blockSites false _ hbody) (inOrder_caseSites rest hrest)
termination_by cs => sizeOf cs

theorem inOrder_handlerSites : ∀ hs : List Node, nodesAre full false .handler hs = true →
    InOrder (handlerSites plan marks hs) (nodesNodes hs)
  | [], _ => by
    rw [handlerSites]
    · exact .nil _
    · simp
  | .gap :: rest, h => by simp [nodesAre_cons, Node.isA] at h
  | .mk i c p fs :: rest, h => by
    obtain ⟨hn, hrest⟩ := nodesAre_cons.1 h
    obtain ⟨hc, hfit⟩ := isA_mk.1 (hn.resolve_right (by simp))
    obtain rfl := class_of_category.2 hc
    cases shape_of_fits hfit with
    | @handler type name body htype hname hsome hbody =>
      have ht := (inOrder_fieldSites _ type htype rfl).none (starts_field_eq_nil htype rfl)
      exact inOrder_handlers_cons ht (inOrder_blockSites false _ hbody) (inOrder_handlerSites rest hrest)
termination_by hs => sizeOf hs

theorem inOrder_fieldsSites : ∀ (names : List String) (contents : List Content) (fs : List Field),
    fieldsFit full contents fs = true → (∀ content ∈ contents, content.listsStatements = true) →
      InOrder (fieldsSites plan marks names fs) (fieldsNodes fs)
  | [], _, _, _, _ => by
    rw [fieldsSites]
    · exact .nil _
    · simp
  | _ :: _, _, [], _, _ => by
    rw [fieldsSites]
    · exact .nil _
    · simp
  | name :: names, [], f :: fs, h, _ => by simp [fieldsFit] at h
  | name :: names, content :: contents, f :: fs, h, hlists => by
    rw [fieldsFit, Bool.and_eq_true] at h
    obtain ⟨hcontent, hlists⟩ := List.forall_mem_cons.1 hlists
    exact inOrder_fields_cons (inOrder_fieldSites content f h.1 hcontent)
      (inOrder_fieldsSites names contents fs h.2 hlists)
termination_by _ _ fs => sizeOf fs

theorem inOrder_fieldSites (content : Content) : ∀ f : Field, f.fits full content = true →
    content.listsStatements = true → InOrder (fieldSites plan marks f) (f.children.flatMap Node.nodes)
  | .child n, h, hlists => by
    obtain ⟨cat, -, hn⟩ := isA_of_fits_child h hlists
    rw [fieldSites, Field.children, List.flatMap_singleton]
    exact (inOrder_sites n hn).nodes
  | .many ns, h, hlists => by
    rw [fieldSites, Field.children, ← nodesNodes_eq_flatMap]
    rcases nodesAre_of_fits_many h hlists with ⟨hstarts, hns⟩ | ⟨hstarts, gaps, cat, -, hns⟩
    · rw [if_pos hstarts]
      exact inOrder_blockSites false ns hns
    · rw [if_neg (by simp [hstarts])]
      exact inOrder_allSites ns hns
  | .none, _, _ | .text _, _, _ | .number _, _, _ | .constant _, _, _ | .names _, _, _ => by
    rw [fieldSites]
    all_goals first | exact .nil _ | simp
termination_by f => sizeOf f
end

end Order

end Coverage.Pass
