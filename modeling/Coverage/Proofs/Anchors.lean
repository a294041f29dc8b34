import Coverage.Proofs.Nesting
import Coverage.Proofs.Pass.Starts
import Coverage.Proofs.Placement

/-!
# Which lines probes report

An error in a tree with probes is reported at the lines of the original. Every node of the original keeps its place, and
every node of a probe has the place of one of them, its anchor, which is told by what the probe counts: the statement,
the first statement of a function body after the docstring, the first statement of the block of an arm, the expression
of an arm, or the header of a statement that has no clause for the arm. The anchor is looked up after the block is
walked, when another counter can stand in front; but that counter has its place from the same statement.

A tree of the grammar has statements and expressions where anchors are looked for. So if no place is missing in it, none
is missing in what the walk makes of it either, and filling in places afterwards does nothing.
-/

namespace Coverage.Syntax

/-! ## Complete places -/

section Places

theorem place_fillPlaces {n : Node} (h : n.placeable = true → n.place.span?.isSome = true) (outer : Place) :
    (n.fillPlaces outer).place = n.place := by
  cases n with
  | gap => rw [Node.fillPlaces_gap]
  | mk i c p fs =>
    rw [Node.fillPlaces_mk]
    change c.ownPlace p outer = p
    unfold NodeClass.ownPlace
    split
    next hc => exact Place.fill_eq_self outer (h hc)
    next => rfl

/-- Fields are placed if all nodes in them are. -/
theorem fieldsPlaced_of_children {fs : List Field} (h : ∀ n ∈ fs.flatMap Field.children, n.placed = true) :
    fieldsPlaced fs = true := by
  have hnodes : ∀ ns : List Node, (∀ n ∈ ns, n.placed = true) → nodesPlaced ns = true := by
    intro ns hns
    induction ns with
    | nil => rfl
    | cons n ns ih =>
      obtain ⟨hn, hns⟩ := List.forall_mem_cons.1 hns
      exact nodesPlaced_cons.2 ⟨hn, ih hns⟩
  induction fs with
  | nil => rfl
  | cons f fs ih =>
    rw [List.flatMap_cons, List.forall_mem_append] at h
    refine fieldsPlaced_cons.2 ⟨?_, ih h.2⟩
    cases f with
    | child n => exact h.1 n (List.mem_singleton.2 rfl)
    | many ns => exact hnodes ns h.1
    | _ => rfl

/-- It is enough to look at the places of the nodes one by one. -/
theorem placed_of_nodes {tree : Node}
    (h : ∀ n ∈ tree.nodes, n.placeable = true → n.place.span?.isSome = true) : tree.placed = true := by
  induction tree using Node.induction with
  | gap => rfl
  | mk i c p fs ih =>
    refine placed_mk.2 ⟨h _ (self_mem_nodes Node.mk_ne_gap), fieldsPlaced_of_children fun n hn ↦ ?_⟩
    exact ih n hn fun m hm ↦ h m (mem_nodes_of_child hn hm)

theorem span?_of_placed {tree n : Node} (h : tree.placed = true) (hn : n ∈ tree.nodes) (hplace : n.placeable = true) :
    n.place.span?.isSome = true := by
  have hplaced := placed_of_mem_nodes h n hn
  cases n with
  | gap => cases hplace
  | mk i c p fs => exact (placed_mk.1 hplaced).1 hplace

end Places

end Coverage.Syntax

namespace Coverage.Pass

open Syntax Program

/-- Only the nodes of the list itself have to be carried over. -/
theorem Interleaved.imp_of_mem {R S : Node → Node → Prop} {New New' : Node → Prop} {ns ns' : List Node}
    (h : Interleaved R New ns ns') (hkeep : ∀ n ∈ ns, ∀ n', R n n' → S n n') (hnew : ∀ n, New n → New' n) :
    Interleaved S New' ns ns' := by
  induction h with
  | nil => exact .nil
  | keep h _ ih =>
    obtain ⟨hn, hns⟩ := List.forall_mem_cons.1 hkeep
    exact .keep (hn _ h) (ih hns)
  | insert h _ ih => exact .insert (hnew _ h) (ih hkeep)

/-! ## Anchors -/

/-- The header of a statement that has no clause for an arm. -/
def header? : Node → Nat → Option Node
  | .mk _ .ifStmt _ [.child test, .many _, .many []], 1 => some test
  | .mk _ .whileLoop _ [.child test, .many _, .many []], 1 => some test
  | .mk _ (.forLoop _) _ [.child _, .child iter, .many _, .many [], _], 1 => some iter
  | .mk _ .matchStmt _ [.child subject, .many cases], k => if k < cases.length then none else some subject
  | _, _ => none

def guardedBody? : Node → Option (List Node)
  | .mk _ (.tryStmt _) _ [.many body, .many _, .many _, .many _] => some body
  | _ => none

/-- The node of the tree in whose place the probe for an entry stands. -/
inductive Anchors (tree : Node) (e : Entry Kind) : Node → Prop
  /-- The counted statement. -/
  | statement {o block s} (kind : e.kind = .statement) (ho : o ∈ tree.nodes) (source : .many block ∈ o.fields)
    (hs : s ∈ block) (range : HasRange s e.span) : Anchors tree e s
  /-- The first statement of the body after the docstring, or the docstring if there is no other. -/
  | function {n body} (kind : e.kind = .function) (hn : n ∈ tree.nodes) (range : HasRange n e.span)
    (source : functionBody? n = some body) (hsome : body ≠ []) : Anchors tree e (bodyAnchor body)
  /-- The body of the `lambda`. -/
  | lambda {n x} (kind : e.kind = .function) (hn : n ∈ tree.nodes) (range : HasRange n e.span)
    (source : lambdaBody? n = some x) : Anchors tree e x
  /-- The first statement of the block of the arm. -/
  | clause {n k s rest} (kind : e.kind = .branch) (hn : n ∈ tree.nodes) (range : armRange? n k = some e.span)
    (source : armBlock? n k = some (s :: rest)) : Anchors tree e s
  /-- The expression of the arm. -/
  | operand {n k x} (kind : e.kind = .branch) (hn : n ∈ tree.nodes) (range : armRange? n k = some e.span)
    (source : armExpr? n k = some x) : Anchors tree e x
  /-- The last test of a chain, the test or the iterable of a loop, or the subject of a `match`. -/
  | header {n k x} (kind : e.kind = .branch) (hn : n ∈ tree.nodes) (range : armRange? n k = some e.span)
    (source : header? n k = some x) : Anchors tree e x
  /-- The first statement of the guarded body. -/
  | guarded {n k s rest} (kind : e.kind = .branch) (hn : n ∈ tree.nodes) (range : armRange? n k = some e.span)
    (source : guardedBody? n = some (s :: rest)) : Anchors tree e s

section Arms

variable {header n : Node} {body orelse : List Node} {k : Nat} {span : Span}

theorem exists_cons_of_locateAll {ns : List Node} (h : locateAll ns = .ok span) : ∃ s rest, ns = s :: rest := by
  cases ns with
  | nil => cases h
  | cons s rest => exact ⟨s, rest, rfl⟩

/-- A clause starts with a statement, or there is none and the header stands for it. -/
theorem clauseAnchor_cases (h : clauseRange? header body orelse k = some span) :
    (k = 0 ∧ ∃ rest, body = clauseAnchor header body orelse k :: rest) ∨
      (k = 1 ∧ ∃ rest, orelse = clauseAnchor header body orelse k :: rest) ∨
        (k = 1 ∧ orelse = [] ∧ clauseAnchor header body orelse k = header) := by
  unfold clauseRange? at h
  split at h
  next =>
    obtain ⟨s, rest, rfl⟩ := exists_cons_of_locateAll (ok_of_toOption h)
    exact .inl ⟨rfl, rest, rfl⟩
  next =>
    cases orelse with
    | nil => exact .inr (.inr ⟨rfl, rfl, rfl⟩)
    | cons s rest => exact .inr (.inl ⟨rfl, rest, rfl⟩)
  next => cases h

/-- What the anchor of an arm with a range is. -/
theorem armAnchor_cases (h : armRange? n k = some span) :
    (∃ rest, armBlock? n k = some (armAnchor n k :: rest)) ∨ armExpr? n k = some (armAnchor n k) ∨
      header? n k = some (armAnchor n k) ∨ ∃ rest, guardedBody? n = some (armAnchor n k :: rest) := by
  unfold armRange? at h
  split at h
  case h_1 | h_2 | h_3 =>
    rcases clauseAnchor_cases h with ⟨rfl, rest, hbody⟩ | ⟨rfl, rest, horelse⟩ | ⟨rfl, rfl, hheader⟩
    · exact .inl ⟨rest, congrArg some hbody⟩
    · exact .inl ⟨rest, congrArg some horelse⟩
    · exact .inr (.inr (.inl (congrArg some hheader.symm)))
  case h_4 i p subject cases =>
    cases hcase : cases[k]? with
    | none =>
      have hlength : ¬k < cases.length := Nat.not_lt.2 (List.getElem?_eq_none_iff.1 hcase)
      exact .inr (.inr (.inl (by simp [header?, armAnchor, hlength])))
    | some c =>
      rw [hcase] at h
      have harm : caseArm c = .ok span := ok_of_toOption h
      unfold caseArm at harm
      split at harm
      next j q pattern guard body =>
        obtain ⟨first, -, harm⟩ := except_bind_eq_ok.1 harm
        obtain ⟨block, hblock, -⟩ := except_bind_eq_ok.1 harm
        obtain ⟨s, rest, rfl⟩ := exists_cons_of_locateAll hblock
        exact .inl ⟨rest, by simp [armBlock?, armAnchor, hcase, caseBody?, firstOr]⟩
      next => cases harm
  case h_5 i star p body handlers orelse finalbody =>
    have hsome : spansOf (tryArms body handlers finalbody) ≠ [] := by
      intro hnil
      simp [hnil] at h
    obtain ⟨s, rest, rfl⟩ := List.exists_cons_of_ne_nil (tryArms_ok (spansOf_ne_nil hsome)).2
    exact .inr (.inr (.inr ⟨rest, rfl⟩))
  case h_6 =>
    obtain ⟨x, hx, -⟩ := Option.map_eq_some_iff.1 h
    refine .inr (.inl ?_)
    unfold armExpr? at hx ⊢
    split at hx
    case h_3 => exact hx.trans (by simp [armAnchor, armExpr?, hx])
    case h_4 => cases hx
    all_goals rfl

theorem bodyAnchor_mem (h : body ≠ []) : bodyAnchor body ∈ body := by
  cases body with
  | nil => exact absurd rfl h
  | cons s rest =>
    unfold bodyAnchor
    split
    · cases rest with
      | nil => exact List.mem_cons_self
      | cons t rest => exact List.mem_cons_of_mem _ List.mem_cons_self
    · exact List.mem_cons_self

end Arms

/-! ### In a tree of the grammar -/

section Grammar

variable {full : Bool} {cat : Category} {n s x : Node} {body : List Node} {k : Nat} (h : n.isA full cat = true)

include h

theorem placeable_of_functionBody? (hbody : functionBody? n = some body) (hs : s ∈ body) : s.placeable = true := by
  unfold functionBody? at hbody
  split at hbody
  next =>
    cases hbody
    cases shape_of_fits (isA_mk.1 h).2 with
    | functionDef hargs hsome hbody => exact placeable_of_isA (isA_of_mem hbody hs) rfl
  next => cases hbody

theorem placeable_of_lambdaBody? (hbody : lambdaBody? n = some x) : x.placeable = true := by
  unfold lambdaBody? at hbody
  split at hbody
  next =>
    cases hbody
    cases shape_of_fits (isA_mk.1 h).2 with
    | lambda hargs hbody => exact placeable_of_isA hbody rfl
  next => cases hbody

theorem placeable_of_caseBody? (hbody : caseBody? n = some body) (hs : s ∈ body) : s.placeable = true := by
  unfold caseBody? at hbody
  split at hbody
  next =>
    cases hbody
    cases shape_of_fits (isA_mk.1 h).2 with
    | matchCase hpattern hguard hsome hbody => exact placeable_of_isA (isA_of_mem hbody hs) rfl
  next => cases hbody

theorem placeable_of_guardedBody? (hbody : guardedBody? n = some body) (hs : s ∈ body) : s.placeable = true := by
  unfold guardedBody? at hbody
  split at hbody
  next =>
    cases hbody
    cases shape_of_fits (isA_mk.1 h).2 with
    | tryStmt hsome hbody => exact placeable_of_isA (isA_of_mem hbody hs) rfl
  next => cases hbody

theorem placeable_of_armBlock? (hblock : armBlock? n k = some body) (hs : s ∈ body) : s.placeable = true := by
  unfold armBlock? at hblock
  split at hblock
  case h_7 =>
    obtain ⟨c, hc, hbody⟩ := Option.bind_eq_some_iff.1 hblock
    cases shape_of_fits (isA_mk.1 h).2 with
    | matchStmt hsubject hsome hcases =>
      exact placeable_of_caseBody? (isA_of_mem hcases (List.mem_of_getElem? hc)) hbody hs
  case h_8 => cases hblock
  all_goals
    cases hblock
    cases shape_of_fits (isA_mk.1 h).2 with
    | _ => exact placeable_of_isA (isA_of_mem (by assumption) hs) rfl

theorem placeable_of_armExpr? (hexpr : armExpr? n k = some x) : x.placeable = true := by
  unfold armExpr? at hexpr
  split at hexpr
  case h_3 =>
    cases shape_of_fits (isA_mk.1 h).2 with
    | boolOp hop hsome hvalues => exact placeable_of_isA (isA_of_mem hvalues (List.mem_of_getElem? hexpr)) rfl
  case h_4 => cases hexpr
  all_goals
    cases hexpr
    cases shape_of_fits (isA_mk.1 h).2 with
    | ifExp htest hbody horelse => exact placeable_of_isA (by assumption) rfl

/-- The header of an arm can have a place. -/
theorem placeable_of_header? (hheader : header? n k = some x) : x.placeable = true := by
  unfold header? at hheader
  split at hheader
  case h_1 =>
    cases hheader
    cases shape_of_fits (isA_mk.1 h).2 with
    | ifStmt htest => exact placeable_of_isA htest rfl
  case h_2 =>
    cases hheader
    cases shape_of_fits (isA_mk.1 h).2 with
    | whileLoop htest => exact placeable_of_isA htest rfl
  case h_3 =>
    cases hheader
    cases shape_of_fits (isA_mk.1 h).2 with
    | forLoop htarget hiter => exact placeable_of_isA hiter rfl
  case h_4 =>
    split at hheader
    next => cases hheader
    next =>
      cases hheader
      cases shape_of_fits (isA_mk.1 h).2 with
      | matchStmt hsubject => exact placeable_of_isA hsubject rfl
  case h_5 => cases hheader

end Grammar

section Anchors

variable {tree a : Node} {e : Entry Kind}

/-- An anchor is a node of the tree. -/
theorem Anchors.mem_nodes (h : Anchors tree e a) (hgap : a ≠ .gap) : a ∈ tree.nodes := by
  have hchild : ∀ {n}, n ∈ tree.nodes → a ∈ n.children → a ∈ tree.nodes :=
    fun hn ha ↦ nodes_trans hn (child_mem_nodes ha hgap)
  cases h with
  | statement kind ho source hs range => exact nodes_trans ho (mem_nodes_of_many source hs hgap)
  | function kind hn range source hsome =>
    refine hchild hn ?_
    unfold functionBody? at source
    split at source
    next =>
      cases source
      exact many_subset_children (by simp) (bodyAnchor_mem hsome)
    next => cases source
  | lambda kind hn range source =>
    refine hchild hn ?_
    unfold lambdaBody? at source
    split at source
    next =>
      cases source
      exact child_mem_children (by simp)
    next => cases source
  | clause kind hn range source =>
    rcases mem_nodes_of_armBlock? source a List.mem_cons_self with ha | ⟨c, hc, ha⟩
    · exact hchild hn ha
    · exact nodes_trans hn (mem_nodes_of_child hc (child_mem_nodes ha hgap))
  | operand kind hn range source => exact hchild hn (mem_children_of_armExpr? source)
  | header kind hn range source =>
    refine hchild hn ?_
    unfold header? at source
    split at source
    case h_4 =>
      split at source
      next => cases source
      next =>
        cases source
        exact child_mem_children (by simp)
    case h_5 => cases source
    all_goals
      cases source
      exact child_mem_children (by simp)
  | guarded kind hn range source =>
    refine hchild hn ?_
    unfold guardedBody? at source
    split at source
    next =>
      cases source
      exact many_subset_children List.mem_cons_self List.mem_cons_self
    next => cases source

end Anchors

/-! ## Probes -/

section Stamped

variable {plan : Plan} {key : Key} {place : Place} {a m : Node}

theorem place_arguments (i : NodeId) (ss : List String) :
    ∀ n ∈ nodesNodes (Probe.arguments place i ss), n.placeable = true → n.place = place := by
  induction ss generalizing i with
  | nil => simp [Probe.arguments, nodesNodes]
  | cons s ss ih =>
    rw [Probe.arguments, nodesNodes, List.forall_mem_append]
    refine ⟨?_, ih (i + 1)⟩
    simp [Probe.stringConstant, Node.nodes, fieldsNodes, Node.place]

theorem place_call (method : String) (keys : List Key) (i : NodeId) :
    ∀ n ∈ (Probe.call plan method keys place i).nodes, n.placeable = true → n.place = place := by
  have hload (j : NodeId) : ∀ n ∈ (Probe.load j).nodes, n.placeable = true → n.place = place := by
    simp only [Probe.load, Node.nodes, fieldsNodes, List.mem_singleton, forall_eq]
    intro h
    cases h
  simp only [Probe.call, Node.nodes, fieldsNodes, nodesNodes, List.append_nil, List.cons_append,
    List.forall_mem_cons, List.forall_mem_append]
  exact ⟨fun _ ↦ rfl, fun _ ↦ rfl, fun _ ↦ rfl, ⟨hload _, hload _⟩, place_arguments (i + 5) (plan.filename :: keys)⟩

theorem place_counter (i : NodeId) :
    ∀ n ∈ (Probe.counter plan key place i).nodes, n.placeable = true → n.place = place := by
  simp only [Probe.counter, Node.nodes, fieldsNodes, List.append_nil, List.forall_mem_cons]
  exact ⟨fun _ ↦ rfl, place_call "hit" [key] (i + 1)⟩

theorem place_fallback (i : NodeId) :
    ∀ n ∈ (Probe.fallback plan key place i).nodes, n.placeable = true → n.place = place := by
  simp only [Probe.fallback, Node.nodes, fieldsNodes, nodesNodes, List.append_nil, List.cons_append,
    List.nil_append, List.forall_mem_cons]
  exact ⟨fun h ↦ (by cases h), fun _ ↦ rfl, place_counter (i + 2)⟩

/-- The nodes of a probe have the place of its anchor, as far as they can carry one. -/
theorem Stamped.place_eq (h : Stamped plan key a m) (hm : m.placeable = true) : m.place = a.place := by
  cases h with
  | counter hmem => exact place_counter _ m hmem hm
  | wrapper id place hmem =>
    simp only [wrapperNodes, List.mem_cons] at hmem
    rcases hmem with rfl | rfl | hmem
    · exact place
    · cases hm
    · exact (place_call _ _ _ m hmem hm).trans place
  | guard hmem =>
    simp only [guardNodes, List.mem_cons] at hmem
    rcases hmem with rfl | rfl | hmem
    · rfl
    · cases hm
    · exact place_call _ _ _ m hmem hm
  | fallback hmem => exact place_fallback _ m hmem hm

theorem placed_call (hplace : place.span?.isSome = true) (method : String) (keys : List Key) (i : NodeId) :
    (Probe.call plan method keys place i).placed = true :=
  placed_of_nodes fun n hn h ↦ place_call method keys i n hn h ▸ hplace

/-- A node that filling in places changes below it only. -/
theorem fillPlaces_mk_eq {i : NodeId} {c : NodeClass} {fs : List Field} (hc : c.role.placeable = true)
    (hplace : place.span?.isSome = true) (outer : Place) :
    (Node.mk i c place fs).fillPlaces outer = .mk i c place (fillFields place fs) := by
  rw [Node.fillPlaces_mk, NodeClass.ownPlace, NodeClass.innerPlace, if_pos hc, if_pos hc,
    Place.fill_eq_self outer hplace]

theorem wrapper_fillPlaces {e : Node} (he : e.place.span?.isSome = true) (j : NodeId) (outer : Place) :
    (Probe.wrapper plan key e j).fillPlaces outer = Probe.wrapper plan key (e.fillPlaces e.place) j := by
  have hplace : (e.fillPlaces e.place).place = e.place := place_fillPlaces (fun _ ↦ he) _
  rw [Probe.wrapper, fillPlaces_mk_eq rfl he, Probe.wrapper, hplace]
  simp only [fillFields_cons, fillFields_nil, Field.fillPlaces_child, Field.fillPlaces_many, fillNodes_cons,
    fillNodes_nil, fillPlaces_eq_self _ _ (placed_call he _ _ _)]
  rw [Node.fillPlaces_mk _ (.plain .or), fillFields_nil]
  rfl

theorem guard_fillPlaces {ok error : Key} {b : List Node} (hplace : place.span?.isSome = true) (j : NodeId)
    (outer : Place) :
    (Probe.guard plan ok error place b j).fillPlaces outer = Probe.guard plan ok error place (fillNodes place b) j := by
  rw [Probe.guard, fillPlaces_mk_eq rfl hplace, Probe.guard]
  simp only [fillFields_cons, fillFields_nil, Field.fillPlaces_none, Field.fillPlaces_many, fillNodes_cons,
    fillNodes_nil]
  rw [Node.fillPlaces_mk _ (.plain .withItem)]
  simp only [fillFields_cons, fillFields_nil, Field.fillPlaces_none, Field.fillPlaces_child,
    fillPlaces_eq_self _ _ (placed_call hplace _ _ _)]
  rfl

/-- Filling in places leaves a node of a probe with a complete place as it is, up to what is below it. -/
theorem Stamped.fillPlaces (h : Stamped plan key a m) (ha : a.place.span?.isSome = true) (outer : Place) :
    Stamped plan key a (m.fillPlaces outer) := by
  have hsame : ∀ {n m : Node}, (∀ k ∈ n.nodes, k.placeable = true → k.place = a.place) → m ∈ n.nodes →
      m.fillPlaces outer = m := by
    intro n m hn hm
    refine fillPlaces_eq_self outer m (placed_of_nodes fun k hk hplace ↦ ?_)
    rw [hn k (nodes_trans hm hk) hplace]
    exact ha
  cases h with
  | counter hm =>
    rw [hsame (place_counter _) hm]
    exact .counter hm
  | fallback hm =>
    rw [hsame (place_fallback _) hm]
    exact .fallback hm
  | @wrapper e j _ id place hm =>
    have he : e.place.span?.isSome = true := place ▸ ha
    rcases List.mem_cons.1 hm with rfl | hbelow
    · rw [wrapper_fillPlaces he]
      exact .wrapper ((id?_fillPlaces _ e).trans id) ((place_fillPlaces (fun _ ↦ he) _).trans place) List.mem_cons_self
    · have hself : m.fillPlaces outer = m := by
        rcases List.mem_cons.1 hbelow with rfl | hcall
        · exact fillPlaces_eq_self outer _ rfl
        · exact hsame (fun k hk h ↦ (place_call _ _ _ k hk h).trans place) hcall
      rw [hself]
      exact .wrapper id place hm
  | @guard error s b j _ hm =>
    rcases List.mem_cons.1 hm with rfl | hbelow
    · rw [guard_fillPlaces ha, fillNodes_cons]
      exact .guard List.mem_cons_self
    · have hself : m.fillPlaces outer = m := by
        rcases List.mem_cons.1 hbelow with rfl | hcall
        · have hfields : fieldsPlaced [.child (Probe.call plan "guard" [key, error] a.place (j + 2)), .none] = true :=
            fieldsPlaced_cons.2 ⟨placed_child.trans (placed_call ha _ _ _), rfl⟩
          exact fillPlaces_eq_self outer _ (placed_mk.2 ⟨fun h ↦ (by cases h), hfields⟩)
        · exact hsame (place_call _ _ _) hcall
      rw [hself]
      exact .guard hm

end Stamped

/-! ## Labels -/

section Labels

variable {plan : Plan} {marks : Marks} {next : NodeId} {tree n n' : Node} {final : Marks} {key : Key}

/-- In a tree of the grammar, only statements are counted as such. -/
theorem isStatement_of_label {full : Bool} {cat : Category} {i : NodeId} (h : tree.isA full cat = true)
    (hids : tree.ids.Nodup) (hn : n ∈ tree.nodes) (hid : n.id? = some i)
    (hlabel : .label (.started i) (some key) ∈ (roster plan marks tree).tags) : n.isStatement = true := by
  obtain ⟨e, haccepted, -⟩ := backed_enrolAll _ _ _ hlabel
  obtain ⟨site, hsite, htells, -⟩ := accepted_enrolAll haccepted
  have hstart : (.started i, e.span) ∈ starts tree.nodes := by
    refine (inOrder_sites tree h).nodes.subset (List.mem_filterMap.2 ⟨site, hsite, ?_⟩)
    have kind : e.kind = .statement := by
      cases toldAll_sites tree site hsite e _ htells with
      | started hs id kind span => exact kind
    cases htells with
    | unit =>
      cases kind
      rfl
    | arm hk => cases kind
  obtain ⟨s, hs, hstatement, hsid, -⟩ := mem_starts hstart
  exact eq_of_id? hids hs hn hsid hid ▸ hstatement

/-- A label with a key stands for an entry, whose anchor is that of the event. -/
theorem anchors_of_label (htree : Identified next tree) (hplaced : tree.placed = true)
    (hwoven : Woven plan marks next final tree (roster plan marks tree).tags n') {event : Event} (hn : n ∈ tree.nodes)
    (hid : n.id? = some event.node) (hlabel : .label event (some key) ∈ (roster plan marks tree).tags) :
    ∃ e ∈ (roster plan marks tree).record.entries, e.key = key ∧ Anchors tree e (anchorOf n event) ∧
      ∀ full cat, tree.isA full cat = true → (anchorOf n event).placeable = true := by
  obtain ⟨e, he, hkey, -, told⟩ := exists_entry_of_label hlabel
  refine ⟨e, he, hkey, ?_⟩
  have horiginal : Original next tree := ⟨hplaced, htree.below⟩
  have hrange : HasRange n (spanOf n) := (horiginal.of_mem_nodes n hn).hasRange
  have hgrammar : ∀ {full cat}, tree.isA full cat = true → ∃ cat, n.isA full cat = true :=
    fun h ↦ isA_of_mem_nodes h n hn
  cases event with
  | started i =>
    refine ⟨?_, fun full cat h ↦ placeable_of_isStatement (isStatement_of_label h htree.nodup hn hid hlabel)⟩
    cases hwoven.tracks _ _ hlabel with
    | started ho source ho' target hb same front =>
      cases front with
      | intro hs woven fresh front =>
        obtain ⟨kind, span⟩ := told.of_started htree.nodup hn hid
        have hsame := eq_of_id? htree.nodup hn (nodes_trans ho (mem_nodes_of_many source hs Node.mk_ne_gap)) hid rfl
        exact .statement kind ho source (hsame ▸ hs) (span ▸ hrange)
    | node hm hm' woven owns => cases owns
  | entered i =>
    obtain ⟨kind, span⟩ := told.of_entered htree.nodup hn hid
    cases hwoven.tracks _ _ hlabel with
    | started ho source ho' target hb same front => cases front
    | node hm hm' woven owns =>
      cases owns with
      | @entry _ async p name args body decorators returns comment _ a b b' ds _ hb entry =>
        obtain rfl := eq_of_id? htree.nodup hn hm hid rfl
        have hsome : body ≠ [] := by
          rintro rfl
          cases hb
          cases entry
        refine ⟨.function kind hn (span ▸ hrange) rfl hsome, fun full cat h ↦ ?_⟩
        obtain ⟨cat', h⟩ := hgrammar h
        exact placeable_of_functionBody? h rfl (bodyAnchor_mem hsome)
      | @lambda _ p args body _ a b b' _ hb entry =>
        obtain rfl := eq_of_id? htree.nodup hn hm hid rfl
        refine ⟨.lambda kind hn (span ▸ hrange) rfl, fun full cat h ↦ ?_⟩
        obtain ⟨cat', h⟩ := hgrammar h
        exact placeable_of_lambdaBody? h rfl
  | took i k =>
    obtain ⟨kind, range⟩ := told.of_took htree.nodup hn hid
    change Anchors tree e (armAnchor n k) ∧ ∀ full cat, tree.isA full cat = true → (armAnchor n k).placeable = true
    rcases armAnchor_cases range with ⟨rest, hblock⟩ | hexpr | hheader | ⟨rest, hguarded⟩
    · refine ⟨.clause kind hn range hblock, fun full cat h ↦ ?_⟩
      obtain ⟨cat', h⟩ := hgrammar h
      exact placeable_of_armBlock? h hblock List.mem_cons_self
    · refine ⟨.operand kind hn range hexpr, fun full cat h ↦ ?_⟩
      obtain ⟨cat', h⟩ := hgrammar h
      exact placeable_of_armExpr? h hexpr
    · refine ⟨.header kind hn range hheader, fun full cat h ↦ ?_⟩
      obtain ⟨cat', h⟩ := hgrammar h
      exact placeable_of_header? h hheader
    · refine ⟨.guarded kind hn range hguarded, fun full cat h ↦ ?_⟩
      obtain ⟨cat', h⟩ := hgrammar h
      exact placeable_of_guardedBody? h hguarded List.mem_cons_self

end Labels

/-! ## Whole passes -/

/-- The second node stands for the first, in its place. -/
structure InPlace (n m : Node) : Prop where
  id : m.id? = n.id?
  cls : m.cls? = n.cls?
  place : m.place = n.place

/-- A node of the probe for an entry, in the place of its anchor. An anchor that can carry a place is a node of the
tree; in a tree of the grammar all of them can. -/
structure InLine (plan : Plan) (tree : Node) (e : Entry Kind) (a m : Node) : Prop where
  anchors : Anchors tree e a
  placeable : ∀ full cat, tree.isA full cat = true → a.placeable = true
  original : a.placeable = true → a ∈ tree.nodes
  stamped : a.placeable = true → Stamped plan e.key a m
  place : a.placeable = true → m.placeable = true → m.place = a.place

/-- The nodes that a walk can put into a tree: those of probes for entries, with the anchors that these have. -/
def Fitting (plan : Plan) (tree : Node) (record : Metadata Kind) (m : Node) : Prop :=
  ∃ e ∈ record.entries, ∃ a, Anchors tree e a ∧ (∀ full cat, tree.isA full cat = true → a.placeable = true) ∧
    Stamped plan e.key a m

section Passes

variable {plan : Plan} {marks : Marks} {next : NodeId} {tree n m : Node}

theorem InPlace.placeable (h : InPlace n m) : m.placeable = n.placeable := by rw [Node.placeable, h.cls, Node.placeable]

theorem Rewoven.inPlace {final : Marks} {E : Node → Prop} (h : Rewoven plan marks next final E n m) : InPlace n m := by
  cases h with
  | same | case | handler => exact ⟨rfl, rfl, rfl⟩
  | woven hn h =>
    cases h with
    | ifStmt free chain => cases chain <;> exact ⟨rfl, rfl, rfl⟩
    | _ => exact ⟨rfl, rfl, rfl⟩

/-- A node in its place stays there when places are filled in. -/
theorem InPlace.fillPlaces (h : InPlace n m) (hn : n.placeable = true → n.place.span?.isSome = true) (outer : Place) :
    InPlace n (m.fillPlaces outer) where
  id := (id?_fillPlaces outer m).trans h.id
  cls := by
    cases m with
    | gap => rw [Node.fillPlaces_gap, h.cls]
    | mk i c p fs =>
      rw [Node.fillPlaces_mk]
      exact h.cls
  place := by
    rw [← h.placeable, ← h.place] at hn
    rw [place_fillPlaces hn, h.place]

theorem Fitting.inLine {record : Metadata Kind} (h : Fitting plan tree record m) (hplaced : tree.placed = true)
    (outer : Place) :
    ∃ e ∈ record.entries, ∃ a, InLine plan tree e a (m.fillPlaces outer) := by
  obtain ⟨e, he, a, hanchors, hgrammar, hstamped⟩ := h
  have horiginal : a.placeable = true → a ∈ tree.nodes := fun ha ↦ hanchors.mem_nodes (ne_gap_of_placeable ha)
  have hfilled : a.placeable = true → Stamped plan e.key a (m.fillPlaces outer) :=
    fun ha ↦ hstamped.fillPlaces (span?_of_placed hplaced (horiginal ha) ha) outer
  exact ⟨e, he, a, hanchors, hgrammar, horiginal, hfilled, fun ha ↦ (hfilled ha).place_eq⟩

/-- What a walk makes of a tree. -/
theorem interleaved_visit {final : Marks} (htree : Identified next tree) (hplaced : tree.placed = true)
    (hwoven : Woven plan marks next final tree (roster plan marks tree).tags n) :
    Interleaved InPlace (Fitting plan tree (roster plan marks tree).record) tree.nodes n.nodes := by
  have F : Setting plan marks (· ∈ tree.nodes) (roster plan marks tree).tags
      (Fitting plan tree (roster plan marks tree).record) := by
    refine { encloses_nodes tree with new := fun hn hid hlabel hm ↦ ?_ }
    obtain ⟨e, he, rfl, hanchors, hgrammar⟩ := anchors_of_label htree hplaced hwoven hn hid hlabel
    exact ⟨e, he, _, hanchors, hgrammar, hm⟩
  exact (hwoven.spread F (fun hgap _ ↦ self_mem_nodes hgap) (List.Subset.refl _)).imp Rewoven.inPlace id

/-- A walk over a tree of the grammar without missing places puts in no node that lacks one. -/
theorem placed_visit {final : Marks} {full : Bool} {cat : Category} (htree : Identified next tree)
    (hplaced : tree.placed = true) (hgrammar : tree.isA full cat = true)
    (hwoven : Woven plan marks next final tree (roster plan marks tree).tags n) : n.placed = true := by
  refine placed_of_nodes ((interleaved_visit htree hplaced hwoven).forall_mem (fun hkept hn ↦ ?_) ?_
    fun m hm ↦ span?_of_placed hplaced hm)
  · rwa [hkept.placeable, hkept.place]
  · rintro m ⟨e, -, a, hanchors, hplaceable, hstamped⟩ hm
    have ha := hplaceable full cat hgrammar
    rw [hstamped.place_eq hm]
    exact span?_of_placed hplaced (hanchors.mem_nodes (ne_gap_of_placeable ha)) ha

/-- In the result of a pass over a tree without missing places, all nodes of the tree keep their places, and each node
that was put in belongs to the probe for an entry and has its place from a node of the tree, which the entry tells. In a
tree of the grammar, filling in places then changes nothing. -/
theorem inLine_instrument {i : Instrumented} (htree : Identified next tree) (hplaced : tree.placed = true)
    (h : instrument plan marks next tree = .ok i) :
    Interleaved InPlace (fun m ↦ ∃ e ∈ i.record.entries, ∃ a, InLine plan tree e a m) tree.nodes i.tree.nodes ∧
      ∀ full cat, tree.isA full cat = true → ∃ s, Yields (visit plan tree) (start plan marks next) i.tree s := by
  obtain ⟨-, n, s, hrun, rfl⟩ := instrument_eq_ok.1 h
  obtain ⟨hwoven, hrecord, -⟩ := visit_spec htree hrun
  have hwalked := interleaved_visit htree hplaced hwoven
  rw [← hrecord] at hwalked
  constructor
  · refine (hwalked.comp (nodes_fillPlaces n .start)).imp_of_mem ?_ ?_
    · rintro n hn _ ⟨w, hkept, o, rfl⟩
      exact hkept.fillPlaces (span?_of_placed hplaced hn) o
    · rintro _ ⟨w, hfitting, o, rfl⟩
      exact hfitting.inLine hplaced o
  · intro full cat hgrammar
    have hfull : n.placed = true := placed_visit htree hplaced hgrammar hwoven
    refine ⟨s, ?_⟩
    change Yields _ _ (n.fillPlaces .start) s
    rwa [fillPlaces_eq_self .start n hfull]

end Passes

/-- A module with code of all kinds. -/
theorem inLine_instrument_nestedModule :
    ∃ i, instrument { filename := "m.py" } {} 24 nestedModule = .ok i ∧
      (i.record.entries.length, nestedModule.nodes.length, i.tree.nodes.length) = (19, 24, 173) ∧
      Interleaved InPlace (fun m ↦ ∃ e ∈ i.record.entries, ∃ a, InLine { filename := "m.py" } nestedModule e a m)
        nestedModule.nodes i.tree.nodes ∧
      ∃ s, Yields (visit { filename := "m.py" } nestedModule) (start { filename := "m.py" } {} 24) i.tree s := by
  have hcounts : (instrument { filename := "m.py" } {} 24 nestedModule).toOption.map
      (fun i ↦ (i.record.entries.length, nestedModule.nodes.length, i.tree.nodes.length)) = some (19, 24, 173) := by
    decide +kernel
  have hgrammar : nestedModule.isA true .root = true := by decide +kernel
  obtain ⟨i, h, hcounts⟩ := exists_ok_of_map hcounts
  obtain ⟨hlines, hwalk⟩ := inLine_instrument ⟨by decide, by decide⟩ (by decide +kernel) h
  exact ⟨i, h, hcounts, hlines, hwalk true .root hgrammar⟩

end Coverage.Pass
