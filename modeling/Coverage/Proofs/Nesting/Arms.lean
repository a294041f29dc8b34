import Coverage.Proofs.Nesting.Bounds
import Coverage.Proofs.Nesting.Occurrences

/-!
# Arms in properly nested trees

The nodes that an arm goes between stand right below the decision point or, for the cases of a `match`, one step further
down. The arms of one decision point start at unrelated nodes. In a properly nested tree whose clauses are shorter than
their statements, no arm is as long as the decision point itself.
-/

namespace Coverage.Pass

open Syntax

/-- The clauses of a statement: its bodies, its handlers, and its cases one by one. -/
def clauses : Node → List (Node × Node)
  | .mk _ .ifStmt _ [_, .many body, .many orelse] => bounds body ++ bounds orelse
  | .mk _ .whileLoop _ [_, .many body, .many orelse] => bounds body ++ bounds orelse
  | .mk _ (.forLoop _) _ [_, _, .many body, .many orelse, _] => bounds body ++ bounds orelse
  | .mk _ (.tryStmt _) _ [.many body, .many handlers, _, .many finalbody] =>
    bounds body ++ bounds handlers ++ bounds finalbody
  | .mk _ .matchStmt _ [_, .many cases] => cases.flatMap caseBounds
  | _ => []

/-- No clause of a statement is as long as the statement. -/
def StrictClauses (tree : Node) : Prop := ∀ n ∈ tree.nodes, ∀ e ∈ clauses n, boundsSpan e ≠ spanOf n

/-! ## The nearest nodes with a place -/

/-- The nodes with a place right below a node. Nodes that cannot carry one are replaced by those right below them. -/
def parts (n : Node) : List Node :=
  n.children.flatMap fun k ↦ if k.placeable then [k] else k.children.filter Node.placeable

section Parts

variable {n m k e : Node} {full : Bool} {cat : Category} {ns : List Node}

/-- The parts of a node, whether right below it or below a node without a place. -/
theorem mem_parts : e ∈ parts n ↔ e.placeable = true ∧
    (e ∈ n.children ∨ ∃ k ∈ n.children, k.placeable = false ∧ e ∈ k.children) := by
  rw [parts, List.mem_flatMap]
  constructor
  · rintro ⟨k, hk, he⟩
    cases hplace : k.placeable with
    | true =>
      obtain rfl : e = k := by simpa [hplace] using he
      exact ⟨hplace, .inl hk⟩
    | false =>
      obtain ⟨he, heplace⟩ : e ∈ k.children ∧ e.placeable = true := by simpa [hplace] using he
      exact ⟨heplace, .inr ⟨k, hk, hplace, he⟩⟩
  · rintro ⟨heplace, he | ⟨k, hk, hplace, he⟩⟩
    · exact ⟨e, he, by simp [heplace]⟩
    · exact ⟨k, hk, by simp [hplace, he, heplace]⟩

theorem mem_nodes_of_part (h : e ∈ parts n) : e ∈ n.nodes := by
  obtain ⟨hplace, he | ⟨k, hk, -, he⟩⟩ := mem_parts.1 h
  · exact child_mem_nodes he (ne_gap_of_placeable hplace)
  · exact mem_nodes_of_child hk (child_mem_nodes he (ne_gap_of_placeable hplace))

/-- A part of a node is below no other node with a place that is below the node. -/
theorem eq_of_part_mem (hids : n.ids.Nodup) (he : e ∈ parts n) (hk : k ∈ n.children) (hm : m ∈ k.nodes)
    (hplace : m.placeable = true) (h : e ∈ m.nodes) : m = e := by
  obtain ⟨-, he | ⟨k', hk', hnot, he⟩⟩ := mem_parts.1 he
  · exact eq_of_child_mem hids he hk hm h
  obtain ⟨j, hj⟩ := List.exists_mem_of_ne_nil _ (ids_ne_nil h)
  obtain rfl : k' = k :=
    eq_of_mem_ids hids hk' hk (mem_ids_of_child he hj) ((ids_sublist (nodes_trans hm h)).subset hj)
  rcases mem_nodes hm with rfl | ⟨l, hl, hm⟩
  · rw [hnot] at hplace
    cases hplace
  · have hmem : k' ∈ n.nodes := child_mem_nodes hk (by rintro rfl; cases he)
    exact eq_of_child_mem (hids.sublist (ids_sublist hmem)) he hl hm h

theorem placeable_of_mem (h : nodesAre full false cat ns = true) (hcat : cat.located = true) (hn : n ∈ ns) :
    n.placeable = true :=
  placeable_of_isA (isA_of_mem h hn) hcat

theorem part_of_child {i : NodeId} {c : NodeClass} {p : Place} {fs : List Field} (h : e.isA full cat = true)
    (hcat : cat.located = true) (hf : .child e ∈ fs) : e ∈ parts (.mk i c p fs) :=
  mem_parts.2 ⟨placeable_of_isA h hcat, .inl (child_mem_children hf)⟩

theorem parts_of_many {i : NodeId} {c : NodeClass} {p : Place} {fs : List Field} (h : nodesAre full false cat ns = true)
    (hcat : cat.located = true) (hf : .many ns ∈ fs) : ∀ e ∈ ns, e ∈ parts (.mk i c p fs) :=
  fun _ he ↦ mem_parts.2 ⟨placeable_of_mem h hcat he, .inl (many_subset_children hf he)⟩

end Parts

/-! ## Arms of a construct on its own -/

section Construct

variable {plan : Plan} {full : Bool} {tree n : Node} {i : NodeId} {c : NodeClass} {p : Place} {fs : List Field}
  {e : Node × Node}

theorem forall_bounds {P : Node → Prop} {ns : List Node} (h : ∀ n ∈ ns, P n) : ∀ e ∈ bounds ns, P e.1 ∧ P e.2 :=
  fun _ he ↦ ⟨h _ (mem_of_mem_bounds he).1, h _ (mem_of_mem_bounds he).2⟩

theorem forall_exitBounds {P : Node → Prop} {header : Node} {orelse : List Node} (hheader : P header)
    (horelse : ∀ n ∈ orelse, P n) : ∀ e ∈ exitBounds header orelse, P e.1 ∧ P e.2 := by
  intro e he
  rcases mem_exitBounds he with rfl | he
  · exact ⟨hheader, hheader⟩
  · exact forall_bounds horelse e he

/-- A case goes from one of its children to another. -/
theorem mem_children_of_caseBounds {k : Node} (h : k.isA full .case = true) (he : e ∈ caseBounds k) :
    (e.1 ∈ k.children ∧ e.1.placeable = true) ∧ (e.2 ∈ k.children ∧ e.2.placeable = true) ∧ k.placeable = false := by
  cases k with
  | gap => cases he
  | mk i c p fs =>
    obtain ⟨hc, hfs⟩ := isA_mk.1 h
    obtain rfl := class_of_category.1 hc
    cases shape_of_fits hfs with
    | matchCase hpattern hguard _ hbody =>
      obtain ⟨b, hb, rfl⟩ := List.mem_map.1 he
      have hlast := (mem_of_mem_bounds hb).2
      exact ⟨⟨child_mem_children (by simp), placeable_of_isA hpattern rfl⟩,
        ⟨many_subset_children (by simp) hlast, placeable_of_mem hbody rfl hlast⟩, rfl⟩

theorem firsts_case_mem_nodes {k a : Node} (h : k.isA full .case = true) (ha : a ∈ (caseBounds k).map Prod.fst) :
    a ∈ k.nodes := by
  obtain ⟨e, he, rfl⟩ := List.mem_map.1 ha
  obtain ⟨⟨hfirst, hplace⟩, -⟩ := mem_children_of_caseBounds h he
  exact child_mem_nodes hfirst (ne_gap_of_placeable hplace)

/-- An arm goes from one part of the construct to another. -/
theorem parts_of_armBounds (h : fieldsFit full c.contents fs = true) :
    ∀ e ∈ armBounds c fs, e.1 ∈ parts (.mk i c p fs) ∧ e.2 ∈ parts (.mk i c p fs) := by
  cases shape_of_fits h with
  | ifStmt htest _ hbody horelse | whileLoop htest _ hbody horelse =>
    exact List.forall_mem_append.2 ⟨forall_bounds (parts_of_many hbody rfl (by simp)),
      forall_exitBounds (part_of_child htest rfl (by simp)) (parts_of_many horelse rfl (by simp))⟩
  | forLoop htarget hiter _ hbody horelse hcomment =>
    exact List.forall_mem_append.2 ⟨forall_bounds (parts_of_many hbody rfl (by simp)),
      forall_exitBounds (part_of_child hiter rfl (by simp)) (parts_of_many horelse rfl (by simp))⟩
  | @ifExp test body orelse htest hbody horelse =>
    have hb : body ∈ parts (.mk i .ifExp p [.child test, .child body, .child orelse]) :=
      part_of_child hbody rfl (by simp)
    have ho : orelse ∈ parts (.mk i .ifExp p [.child test, .child body, .child orelse]) :=
      part_of_child horelse rfl (by simp)
    exact List.forall_mem_cons.2 ⟨⟨hb, hb⟩, List.forall_mem_singleton.2 ⟨ho, ho⟩⟩
  | @boolOp op values hop _ hvalues =>
    have hvs : ∀ v ∈ values, v ∈ parts (.mk i .boolOp p [.child op, .many values]) :=
      parts_of_many hvalues rfl (by simp)
    exact List.forall_mem_map.2 fun v hv ↦ ⟨hvs v hv, hvs v hv⟩
  | @matchStmt subject cases hsubject _ hcases =>
    have hs : subject ∈ parts (.mk i .matchStmt p [.child subject, .many cases]) :=
      part_of_child hsubject rfl (by simp)
    have hchildren : cases ⊆ (Node.mk i .matchStmt p [.child subject, .many cases]).children :=
      many_subset_children (by simp)
    refine List.forall_mem_append.2 ⟨fun e he ↦ ?_, fun e he ↦ ?_⟩
    · obtain ⟨k, hk, he⟩ := List.mem_flatMap.1 he
      obtain ⟨⟨hfirst, hfirst'⟩, ⟨hlast, hlast'⟩, hnot⟩ := mem_children_of_caseBounds (isA_of_mem hcases hk) he
      exact ⟨mem_parts.2 ⟨hfirst', .inr ⟨k, hchildren hk, hnot, hfirst⟩⟩,
        mem_parts.2 ⟨hlast', .inr ⟨k, hchildren hk, hnot, hlast⟩⟩⟩
    · split at he
      · cases he
      · obtain rfl := List.mem_singleton.1 he
        exact ⟨hs, hs⟩
  | tryStmt _ hbody hhandlers horelse hfinalbody =>
    refine List.forall_mem_append.2 ⟨forall_bounds (parts_of_many hbody rfl (by simp)), ?_⟩
    split
    · exact forall_bounds (parts_of_many hfinalbody rfl (by simp))
    · exact forall_bounds (parts_of_many hhandlers rfl (by simp))
  | _ => simp [armBounds]

theorem firsts_exitBounds_sublist {header : Node} {orelse : List Node} :
    ((exitBounds header orelse).map Prod.fst).Sublist (header :: orelse) := by
  unfold exitBounds
  split
  · exact List.Sublist.cons_cons _ (List.nil_sublist _)
  · exact firsts_bounds_sublist.cons _

theorem pairwise_firsts_exit {header : Node} {body orelse : List Node}
    (h : (header :: (body ++ orelse)).Pairwise Node.Unrelated) :
    ((bounds body ++ exitBounds header orelse).map Prod.fst).Pairwise Node.Unrelated := by
  rw [List.map_append]
  have hperm : (header :: (body ++ orelse)).Perm (body ++ header :: orelse) := List.perm_middle.symm
  have hall := (hperm.pairwise_iff fun hun ↦ Std.Symm.symm _ _ hun).1 h
  exact hall.sublist (firsts_bounds_sublist.append firsts_exitBounds_sublist)

theorem pairwise_firsts_case (k : Node) : ((caseBounds k).map Prod.fst).Pairwise Node.Unrelated := by
  unfold caseBounds
  split
  next i p pattern guard body =>
    cases body with
    | nil => exact .nil
    | cons n ns =>
      obtain ⟨first, last, hbounds, -⟩ := bounds_eq (List.cons_ne_nil n ns)
      simp [hbounds]
  next => exact .nil

theorem pairwise_firsts_cases {cases : List Node} (hcases : nodesAre full false .case cases = true)
    (h : cases.Pairwise Node.Unrelated) : ((cases.flatMap caseBounds).map Prod.fst).Pairwise Node.Unrelated := by
  rw [List.map_flatMap, List.pairwise_flatMap]
  refine ⟨fun k _ ↦ pairwise_firsts_case k, h.imp_of_mem fun hk hk' hun a ha b hb ↦ ?_⟩
  exact Unrelated.mono hun (firsts_case_mem_nodes (isA_of_mem hcases hk) ha)
    (firsts_case_mem_nodes (isA_of_mem hcases hk') hb)

/-- The arms of a construct start at unrelated nodes. -/
theorem pairwise_firsts (h : fieldsFit full c.contents fs = true) (hids : (Node.mk i c p fs).ids.Nodup) :
    ((armBounds c fs).map Prod.fst).Pairwise Node.Unrelated := by
  have hpair := pairwise_children hids
  cases shape_of_fits h with
  | ifStmt | whileLoop => exact pairwise_firsts_exit (by simpa [Node.children, Field.children] using hpair)
  | @forLoop async target iter body orelse comment =>
    have hrest : (iter :: (body ++ orelse)).Sublist (Node.mk i (.forLoop async) p
        [.child target, .child iter, .many body, .many orelse, comment]).children := by
      simp [Node.children, Field.children, ← List.append_assoc]
    exact pairwise_firsts_exit (hpair.sublist hrest)
  | ifExp => exact hpair.sublist (List.sublist_cons_self ..)
  | @boolOp op values =>
    have hall : (op :: values).Pairwise Node.Unrelated := by simpa [Node.children, Field.children] using hpair
    simpa [armBounds, Function.comp_def] using hall.tail
  | @matchStmt subject cases hsubject _ hcases =>
    have hall : (subject :: cases).Pairwise Node.Unrelated := by simpa [Node.children, Field.children] using hpair
    rw [armBounds, List.map_append, List.pairwise_append]
    refine ⟨pairwise_firsts_cases hcases hall.tail, ?_, ?_⟩
    · split <;> simp
    · intro a ha b hb
      rw [List.map_flatMap] at ha
      obtain ⟨k, hk, ha⟩ := List.mem_flatMap.1 ha
      obtain rfl : b = subject := by
        split at hb
        · cases hb
        · simpa using hb
      have hun : k.Unrelated b := Std.Symm.symm _ _ ((List.pairwise_cons.1 hall).1 k hk)
      exact Unrelated.mono hun (firsts_case_mem_nodes (isA_of_mem hcases hk) ha)
        (self_mem_nodes (ne_gap_of_placeable (placeable_of_isA hsubject rfl)))
  | @tryStmt star body handlers orelse finalbody =>
    have hall : (body ++ (handlers ++ (orelse ++ finalbody))).Pairwise Node.Unrelated := by
      simpa [Node.children, Field.children] using hpair
    rw [armBounds, List.map_append]
    refine hall.sublist (firsts_bounds_sublist.append ?_)
    split
    · exact firsts_bounds_sublist.trans
        ((List.sublist_append_right ..).trans (List.sublist_append_right ..))
    · exact firsts_bounds_sublist.trans (List.sublist_append_left ..)
  | _ => exact .nil

theorem exists_unrelated {n : Node} {ns : List Node} (h : ns.Pairwise Node.Unrelated) (hlen : 2 ≤ ns.length)
    (hn : n ∈ ns) : ∃ m ∈ ns, n.Unrelated m := by
  match ns, h, hlen, hn with
  | a :: b :: rest, h, _, hn =>
    have hfirst := (List.pairwise_cons.1 h).1
    rcases List.mem_cons.1 hn with rfl | hn
    · exact ⟨b, by simp, hfirst b (by simp)⟩
    · exact ⟨a, by simp, Std.Symm.symm _ _ (hfirst n hn)⟩

/-- A part of an expression is shorter than the expression if there is another part beside it. -/
theorem ProperlyNested.spanOf_part_ne (h : ProperlyNested full tree) {n a b : Node} (hn : n ∈ tree.nodes)
    (hplace : n.placeable = true) (hplain : n.decorators = []) (ha : a ∈ parts n) (hb : b ∈ parts n)
    (hbeside : a.Unrelated b) : spanOf a ≠ spanOf n := by
  have hb' := mem_nodes_of_part hb
  have hbplace := (mem_parts.1 hb).1
  exact h.spanOf_ne_of_beside hn (mem_nodes_of_part ha) hb' (mem_parts.1 ha).1 hbplace
    (h.covers hn hplace hplain hb' hbplace) hbeside

/-- No arm of a construct is as long as the construct. -/
theorem boundsSpan_ne (h : ProperlyNested full tree) (hclauses : StrictClauses tree)
    (hn : .mk i c p fs ∈ tree.nodes) : ∀ e ∈ armBounds c fs, boundsSpan e ≠ spanOf (.mk i c p fs) := by
  have hfits := h.fits hn
  have hpair := pairwise_children (h.ids hn)
  have hclause := hclauses _ hn
  cases shape_of_fits hfits with
  | @ifStmt test body orelse htest _ hbody horelse | @whileLoop test body orelse htest _ hbody horelse =>
    rw [clauses, List.forall_mem_append] at hclause
    refine List.forall_mem_append.2 ⟨hclause.1, fun e he ↦ ?_⟩
    rcases mem_exitBounds he with rfl | he
    · exact h.strict _ hn rfl test (child_mem_children (by simp)) (placeable_of_isA htest rfl)
    · exact hclause.2 e he
  | @forLoop async target iter body orelse comment htarget hiter _ hbody horelse hcomment =>
    rw [clauses, List.forall_mem_append] at hclause
    refine List.forall_mem_append.2 ⟨hclause.1, fun e he ↦ ?_⟩
    rcases mem_exitBounds he with rfl | he
    · exact h.strict _ hn rfl iter (child_mem_children (by simp)) (placeable_of_isA hiter rfl)
    · exact hclause.2 e he
  | @ifExp test body orelse htest hbody horelse =>
    have hall : [test, body, orelse].Pairwise Node.Unrelated := by simpa [Node.children, Field.children] using hpair
    have hbeside : body.Unrelated orelse := (List.pairwise_cons.1 hall.tail).1 orelse (by simp)
    have hb : body ∈ parts (.mk i .ifExp p [.child test, .child body, .child orelse]) :=
      part_of_child hbody rfl (by simp)
    have ho : orelse ∈ parts (.mk i .ifExp p [.child test, .child body, .child orelse]) :=
      part_of_child horelse rfl (by simp)
    exact List.forall_mem_cons.2 ⟨h.spanOf_part_ne hn rfl rfl hb ho hbeside,
      List.forall_mem_singleton.2 (h.spanOf_part_ne hn rfl rfl ho hb (Std.Symm.symm _ _ hbeside))⟩
  | @boolOp op values hop _ hvalues =>
    have hall : (op :: values).Pairwise Node.Unrelated := by simpa [Node.children, Field.children] using hpair
    have hlen : 2 ≤ values.length := of_decide_eq_true (h.complete _ hn)
    have hvs : ∀ v ∈ values, v ∈ parts (.mk i .boolOp p [.child op, .many values]) :=
      parts_of_many hvalues rfl (by simp)
    refine List.forall_mem_map.2 fun v hv ↦ ?_
    obtain ⟨w, hw, hbeside⟩ := exists_unrelated hall.tail hlen hv
    exact h.spanOf_part_ne hn rfl rfl (hvs v hv) (hvs w hw) hbeside
  | @matchStmt subject cases hsubject _ hcases =>
    refine List.forall_mem_append.2 ⟨hclause, fun e he ↦ ?_⟩
    split at he
    · cases he
    · obtain rfl := List.mem_singleton.1 he
      exact h.strict _ hn rfl subject (child_mem_children (by simp)) (placeable_of_isA hsubject rfl)
  | @tryStmt star body handlers orelse finalbody =>
    rw [clauses, List.forall_mem_append, List.forall_mem_append] at hclause
    refine List.forall_mem_append.2 ⟨hclause.1.1, fun e he ↦ ?_⟩
    split at he
    · exact hclause.2 e he
    · exact hclause.1.2 e he
  | _ => simp [armBounds]

end Construct

/-! ## Arms of a decision point -/

section DecisionPoint

variable {plan : Plan} {full : Bool} {tree n : Node} {e : Node × Node}

/-- What holds of constructs with the arms of their own, and passes from the next link of a chain to the one before
it, holds of every node. -/
theorem armEnds_induction (plan : Plan) {motive : ∀ n : Node, n ∈ tree.nodes → Prop}
    (own : ∀ i c p fs (hn : .mk i c p fs ∈ tree.nodes), armEnds plan (.mk i c p fs) = armBounds c fs → motive _ hn)
    (link : ∀ i p test body next (hn : .mk i .ifStmt p [.child test, .many body, .many [next]] ∈ tree.nodes)
      (hmem : next ∈ tree.nodes), continues plan {} next = true →
      armEnds plan (.mk i .ifStmt p [.child test, .many body, .many [next]]) = bounds body ++ armEnds plan next →
      motive _ hmem → motive _ hn) (n : Node) (hn : n ∈ tree.nodes) : motive n hn := by
  fun_induction armEnds plan n with
  | case1 i p test body next hnext ih =>
    have hgap : next ≠ .gap := by
      rintro rfl
      cases hnext
    have hmem : next ∈ tree.nodes :=
      nodes_trans hn (child_mem_nodes (many_subset_children (by simp) (List.mem_singleton.2 rfl)) hgap)
    exact link i p test body next hn hmem hnext (by rw [armEnds, if_pos hnext]) (ih hmem)
  | case2 i p test body next hlast => exact own i .ifStmt p _ hn (by rw [armEnds, if_neg hlast])
  | case3 i c p fs hother =>
    refine own i c p fs hn ?_
    rw [armEnds]
    exact hother
  | case4 => exact absurd hn (gap_not_mem_nodes tree)

/-- The body of a link is among the arms of the link on its own. -/
theorem bounds_subset_armBounds {test : Node} {body orelse : List Node} :
    bounds body ⊆ armBounds .ifStmt [.child test, .many body, .many orelse] :=
  List.subset_append_left ..

/-- Arms go from one node with a place to another, both below the decision point. -/
theorem mem_nodes_of_armEnds (h : ProperlyNested full tree) (hn : n ∈ tree.nodes) : ∀ e ∈ armEnds plan n,
    (e.1 ∈ n.nodes ∧ e.1.placeable = true) ∧ (e.2 ∈ n.nodes ∧ e.2.placeable = true) := by
  have hparts : ∀ {i c p fs}, .mk i c p fs ∈ tree.nodes → ∀ e ∈ armBounds c fs,
      (e.1 ∈ (Node.mk i c p fs).nodes ∧ e.1.placeable = true) ∧
        (e.2 ∈ (Node.mk i c p fs).nodes ∧ e.2.placeable = true) := by
    intro i c p fs hn e he
    obtain ⟨hfirst, hlast⟩ := parts_of_armBounds (h.fits hn) e he
    exact ⟨⟨mem_nodes_of_part hfirst, (mem_parts.1 hfirst).1⟩, ⟨mem_nodes_of_part hlast, (mem_parts.1 hlast).1⟩⟩
  induction n, hn using armEnds_induction plan with
  | own i c p fs hn hown =>
    rw [hown]
    exact hparts hn
  | link i p test body next hn hmem hnext hlink ih =>
    rw [hlink]
    refine List.forall_mem_append.2 ⟨fun e he ↦ hparts hn e (bounds_subset_armBounds he), fun e he ↦ ?_⟩
    have hbelow : next ∈ (Node.mk i .ifStmt p [.child test, .many body, .many [next]]).nodes :=
      child_mem_nodes (many_subset_children (by simp) (List.mem_singleton.2 rfl))
        (by rintro rfl; exact gap_not_mem_nodes tree hmem)
    obtain ⟨hfirst, hlast⟩ := ih e he
    exact ⟨⟨nodes_trans hbelow hfirst.1, hfirst.2⟩, ⟨nodes_trans hbelow hlast.1, hlast.2⟩⟩

/-- The arms of a decision point start at unrelated nodes. -/
theorem pairwise_firsts_armEnds (plan : Plan) (h : ProperlyNested full tree) (hn : n ∈ tree.nodes) :
    ((armEnds plan n).map Prod.fst).Pairwise Node.Unrelated := by
  induction n, hn using armEnds_induction plan with
  | own i c p fs hn hown =>
    rw [hown]
    exact pairwise_firsts (h.fits hn) (h.ids hn)
  | link i p test body next hn hmem hnext hlink ih =>
    have hpair : (test :: (body ++ [next])).Pairwise Node.Unrelated := by
      simpa [Node.children, Field.children] using pairwise_children (h.ids hn)
    have hrest := List.pairwise_append.1 hpair.tail
    rw [hlink, List.map_append, List.pairwise_append]
    refine ⟨hrest.1.sublist firsts_bounds_sublist, ih, fun a ha b hb ↦ ?_⟩
    obtain ⟨e, he, rfl⟩ := List.mem_map.1 ha
    obtain ⟨e', he', rfl⟩ := List.mem_map.1 hb
    have hplace : e.1.placeable = true :=
      (mem_nodes_of_armEnds h hn e (hlink ▸ List.mem_append_left _ he)).1.2
    have hbeside : e.1.Unrelated next := hrest.2.2 e.1 (mem_of_mem_bounds he).1 next (List.mem_singleton.2 rfl)
    exact Unrelated.mono hbeside (self_mem_nodes (ne_gap_of_placeable hplace))
      (mem_nodes_of_armEnds h hmem e' he').1.1

theorem plain_of_armBounds {i : NodeId} {c : NodeClass} {p : Place} {fs : List Field} (he : e ∈ armBounds c fs) :
    (Node.mk i c p fs).decorators = [] ∧ (Node.mk i c p fs).placeable = true := by
  unfold armBounds at he
  split at he
  all_goals first
    | exact ⟨rfl, rfl⟩
    | cases he

/-- A decision point has a place and no decorators. -/
theorem plain_of_armEnds (he : e ∈ armEnds plan n) : n.decorators = [] ∧ n.placeable = true := by
  revert he
  fun_cases armEnds plan n with
  | case1 | case2 => exact fun _ ↦ ⟨rfl, rfl⟩
  | case3 => exact plain_of_armBounds
  | case4 => nofun

/-- A decision point covers its arms. -/
theorem covers_of_armEnds (h : ProperlyNested full tree) (hn : n ∈ tree.nodes) (he : e ∈ armEnds plan n) :
    (spanOf n).Covers (spanOf e.1) ∧ (spanOf n).Covers (spanOf e.2) := by
  obtain ⟨hplain, hplace⟩ := plain_of_armEnds he
  obtain ⟨⟨hfirst, hfirst'⟩, hlast, hlast'⟩ := mem_nodes_of_armEnds h hn e he
  exact ⟨h.covers hn hplace hplain hfirst hfirst', h.covers hn hplace hplain hlast hlast'⟩

/-- No arm is as long as the decision point. -/
theorem boundsSpan_ne_of_armEnds (h : ProperlyNested full tree) (hclauses : StrictClauses tree) (hn : n ∈ tree.nodes) :
    ∀ e ∈ armEnds plan n, boundsSpan e ≠ spanOf n := by
  induction n, hn using armEnds_induction plan with
  | own i c p fs hn hown =>
    rw [hown]
    exact boundsSpan_ne h hclauses hn
  | link i p test body next hn hmem hnext hlink ih =>
    rw [hlink]
    refine List.forall_mem_append.2 ⟨fun e he ↦ boundsSpan_ne h hclauses hn e (bounds_subset_armBounds he), ?_⟩
    -- An arm of the rest of the chain lies within the next link, which is shorter than this one.
    intro e he heq
    have hchild : next ∈ (Node.mk i .ifStmt p [.child test, .many body, .many [next]]).children :=
      many_subset_children (by simp) (List.mem_singleton.2 rfl)
    have hplace := (plain_of_armEnds he).2
    have hdown := h.covers hn rfl rfl (child_mem_nodes hchild (ne_gap_of_placeable hplace)) hplace
    obtain ⟨hfirst, hlast⟩ := covers_of_armEnds h hmem he
    have hup : (spanOf next).Covers (boundsSpan e) := ⟨hfirst.1, hlast.2⟩
    exact h.strict _ hn rfl next hchild hplace (Span.Covers.antisymm (heq ▸ hup) hdown)

/-- An occurrence below a link that is not the last is the next link, or below it, or beside it. -/
theorem below_link {i : NodeId} {p : Place} {test next : Node} {body : List Node} {o : Occurrence}
    (hids : (Node.mk i .ifStmt p [.child test, .many body, .many [next]]).ids.Nodup)
    (hnext : continues plan {} next = true)
    (ho : o ∈ descendants plan (.mk i .ifStmt p [.child test, .many body, .many [next]])) :
    o = ⟨next, false, true⟩ ∨ o ∈ descendants plan next ∨ o.node.Unrelated next := by
  have hpair : ((test :: body) ++ [next]).Pairwise Node.Unrelated := by
    simpa [Node.children, Field.children] using pairwise_children hids
  obtain ⟨j, q, test', body', orelse', rfl⟩ := continues_link hnext
  have hbeside : ∀ k ∈ test :: body, o.node ∈ k.nodes → o.node.Unrelated (.mk j .ifStmt q
      [.child test', .many body', .many orelse']) := fun k hk hmem ↦
    Unrelated.mono ((List.pairwise_append.1 hpair).2.2 k hk _ (List.mem_singleton.2 rfl)) hmem
      (self_mem_nodes Node.mk_ne_gap)
  rw [descendants_ifStmt, List.mem_append, List.mem_append] at ho
  rcases ho with ho | ho | ho
  · exact .inr (.inr (hbeside test List.mem_cons_self (mem_nodes_of_occurrences test o ho)))
  · obtain ⟨k, hk, hmem⟩ := mem_nodes_of_nodesOccurrences body o ho
    exact .inr (.inr (hbeside k (List.mem_cons_of_mem _ hk) hmem))
  · have hincluded : plan.excludes (.mk j .ifStmt q [.child test', .many body', .many orelse']) = false := by
      simp only [continues, Bool.and_eq_true, Bool.not_eq_true'] at hnext
      exact hnext.2
    rw [nodesOccurrences, nodesOccurrences, List.append_nil, occurrences, hincluded, Bool.and_false] at ho
    rcases List.mem_cons.1 ho with rfl | ho
    · exact .inl rfl
    · exact .inr (.inl ho)

/-- An end of an arm is below no node with a place that stands below the decision point, other than itself, unless
that is a link of the chain. -/
theorem eq_of_end_mem (h : ProperlyNested full tree) (hn : n ∈ tree.nodes) {o : Occurrence}
    (ho : o ∈ descendants plan n) (hchained : o.chained = false) (hplace : o.node.placeable = true) :
    ∀ e ∈ armEnds plan n, (e.1 ∈ o.node.nodes → o.node = e.1) ∧ (e.2 ∈ o.node.nodes → o.node = e.2) := by
  have hown : ∀ {i c p fs}, .mk i c p fs ∈ tree.nodes → o ∈ descendants plan (.mk i c p fs) → ∀ e ∈ armBounds c fs,
      (e.1 ∈ o.node.nodes → o.node = e.1) ∧ (e.2 ∈ o.node.nodes → o.node = e.2) := by
    intro i c p fs hn ho e he
    obtain ⟨hfirst, hlast⟩ := parts_of_armBounds (h.fits hn) e he
    obtain ⟨k, hk, hbelow⟩ := mem_children_of_descendants ho
    exact ⟨eq_of_part_mem (h.ids hn) hfirst hk hbelow hplace, eq_of_part_mem (h.ids hn) hlast hk hbelow hplace⟩
  induction n, hn using armEnds_induction plan with
  | own i c p fs hn heq =>
    rw [heq]
    exact hown hn ho
  | link i p test body next hn hmem hnext hlink ih =>
    rw [hlink]
    refine List.forall_mem_append.2 ⟨fun e he ↦ hown hn ho e (bounds_subset_armBounds he), fun e he ↦ ?_⟩
    rcases below_link (h.ids hn) hnext ho with rfl | ho | hbeside
    · obtain ⟨j, q, test', body', orelse', rfl⟩ := continues_link hnext
      cases hchained
    · exact ih ho e he
    · obtain ⟨⟨hfirst, -⟩, hlast, -⟩ := mem_nodes_of_armEnds h hmem e he
      exact ⟨fun hin ↦ (not_unrelated hin hfirst hbeside).elim, fun hin ↦ (not_unrelated hin hlast hbeside).elim⟩

end DecisionPoint

end Coverage.Pass
