import Coverage.Proofs.Correspondence.Keys
import Coverage.Proofs.Keys
import Coverage.Proofs.Nesting
import Coverage.Proofs.Pass.Starts

/-!
# Statements are registered in source order

A parser gives the statements of a block increasing places: each ends before the next one starts, also across the blocks
of one compound statement, and a compound statement starts before its inner statements and ends with or after the last
of them. Then statements start later and later in preorder. A pass offers statements in preorder, leaving some out, so
the entries of statements start later and later too. No two of them have the same span, and none is refused.
-/

namespace Coverage.Span

/-- The first span ends before the second starts. -/
def Before (s t : Span) : Prop := s.start < t.start ∧ s.stop ≤ t.start

/-- The second span starts within the first, but not with it, and does not end after it. -/
def Embraces (s t : Span) : Prop := s.start < t.start ∧ t.start < s.stop ∧ t.stop ≤ s.stop

instance (s t : Span) : Decidable (s.Before t) := inferInstanceAs (Decidable (_ ∧ _))

instance (s t : Span) : Decidable (s.Embraces t) := inferInstanceAs (Decidable (_ ∧ _))

end Coverage.Span

namespace Coverage.Syntax

/-! ## Inner statements -/

mutual
/-- The statements in a node that are in no other statement in it. -/
def Node.outermost : Node → List Node
  | .gap => []
  | .mk i c p fs => if c.isStatement then [.mk i c p fs] else fieldsOutermost fs

def fieldsOutermost : List Field → List Node
  | [] => []
  | .child n :: fs => n.outermost ++ fieldsOutermost fs
  | .many ns :: fs => nodesOutermost ns ++ fieldsOutermost fs
  | _ :: fs => fieldsOutermost fs

def nodesOutermost : List Node → List Node
  | [] => []
  | n :: ns => n.outermost ++ nodesOutermost ns
end

/-- The statements of the blocks of a node, one block after the other. The blocks of its clauses are among them. -/
def Node.inner (n : Node) : List Node := fieldsOutermost n.fields

section Outermost

variable {fs : List Field} {ns : List Node} {n : Node}

theorem nodesOutermost_eq_flatMap : nodesOutermost ns = ns.flatMap Node.outermost := by
  induction ns with
  | nil => simp [nodesOutermost]
  | cons n ns ih => rw [nodesOutermost, ih, List.flatMap_cons]

theorem fieldsOutermost_eq_flatMap : fieldsOutermost fs = (fs.flatMap Field.children).flatMap Node.outermost := by
  induction fs with
  | nil => simp [fieldsOutermost]
  | cons f fs ih =>
    rw [List.flatMap_cons, List.flatMap_append, ← ih]
    cases f with
    | child n => simp [fieldsOutermost, Field.children]
    | many ns => rw [fieldsOutermost, nodesOutermost_eq_flatMap, Field.children]
    | _ => simp [fieldsOutermost, Field.children]

theorem inner_eq_flatMap (n : Node) : n.inner = n.children.flatMap Node.outermost := by
  cases n with
  | gap => simp [Node.inner, Node.fields, fieldsOutermost, Node.children]
  | mk i c p fs => rw [Node.inner, Node.fields, fieldsOutermost_eq_flatMap, Node.children]

theorem outermost_of_statement (h : n.isStatement = true) : n.outermost = [n] := by
  cases n with
  | gap => cases h
  | mk i c p fs =>
    have hc : c.isStatement = true := h
    rw [Node.outermost, if_pos hc]

theorem outermost_of_not_statement (h : n.isStatement = false) : n.outermost = n.inner := by
  cases n with
  | gap => rfl
  | mk i c p fs =>
    have hc : c.isStatement = false := h
    rw [Node.outermost, if_neg (by simp [hc])]
    rfl

end Outermost

end Coverage.Syntax

namespace Coverage.Pass

open Syntax Program

/-! ## Preorder -/

/-- The places of statements are as a parser gives them. -/
def SourceOrdered (tree : Node) : Prop :=
  ∀ o ∈ tree.nodes, (o.inner.Pairwise fun s t ↦ (spanOf s).Before (spanOf t)) ∧
    (o.isStatement = true → ∀ s ∈ o.inner, (spanOf o).Embraces (spanOf s))

instance (tree : Node) : Decidable (SourceOrdered tree) :=
  inferInstanceAs (Decidable (∀ o ∈ tree.nodes, _ ∧ (_ → ∀ s ∈ o.inner, _)))

/-- The statement starts first of the statements in it; one after the other they start later, before it ends. -/
structure Staggered (s : Node) : Prop where
  increasing : (starts s.nodes).Pairwise fun a b ↦ a.2.start < b.2.start
  first : ∀ a ∈ starts s.nodes, (spanOf s).start ≤ a.2.start
  within : ∀ a ∈ starts s.nodes, a.2.start = (spanOf s).start ∨ a.2.start < (spanOf s).stop

section Preorder

variable {tree o s : Node} {ss : List Node}

theorem starts_flatMap (ns : List Node) : starts (ns.flatMap Node.nodes) = ns.flatMap fun n ↦ starts n.nodes :=
  List.filterMap_flatMap ..

/-- What starts below a node starts in one of its inner statements. -/
theorem starts_children (h : ∀ n ∈ o.children, starts n.nodes = n.outermost.flatMap fun s ↦ starts s.nodes) :
    starts (o.children.flatMap Node.nodes) = o.inner.flatMap fun s ↦ starts s.nodes := by
  rw [starts_flatMap, inner_eq_flatMap, List.flatMap_assoc]
  exact List.flatMap_congr h

/-- The starts in a tree are those in its outermost statements. -/
theorem starts_nodes_eq_flatMap (n : Node) : starts n.nodes = n.outermost.flatMap fun s ↦ starts s.nodes := by
  induction n using Node.induction with
  | gap => simp [Node.nodes, Node.outermost]
  | mk i c p fs ih =>
    cases hc : (Node.mk i c p fs).isStatement with
    | true => rw [outermost_of_statement hc, List.flatMap_singleton]
    | false =>
      have hself : statementStart? (.mk i c p fs) = none := by simp [statementStart?, hc]
      rw [outermost_of_not_statement hc, ← starts_children ih, nodes_mk]
      exact List.filterMap_cons_none hself

/-- A statement starts, and then its inner statements. -/
theorem starts_statement (h : s.isStatement = true) :
    ∃ event, starts s.nodes = (event, spanOf s) :: s.inner.flatMap fun t ↦ starts t.nodes := by
  cases s with
  | gap => cases h
  | mk i c p fs =>
    have hself : statementStart? (.mk i c p fs) = some (.started i, spanOf (.mk i c p fs)) := by
      simp [statementStart?, h, Node.id?]
    refine ⟨.started i, ?_⟩
    rw [← starts_children fun n _ ↦ starts_nodes_eq_flatMap n, nodes_mk]
    exact List.filterMap_cons_some hself

theorem pairwise_starts (hss : ss.Pairwise fun s t ↦ (spanOf s).Before (spanOf t)) (h : ∀ s ∈ ss, Staggered s) :
    (ss.flatMap fun s ↦ starts s.nodes).Pairwise fun a b ↦ a.2.start < b.2.start := by
  refine List.pairwise_flatMap.2 ⟨fun s hs ↦ (h s hs).increasing, ?_⟩
  refine hss.imp_of_mem fun hs ht hbefore a ha b hb ↦ lt_of_lt_of_le ?_ ((h _ ht).first b hb)
  rcases (h _ hs).within a ha with heq | hlt
  · exact heq ▸ hbefore.1
  · exact hlt.trans_le hbefore.2

theorem staggered_of_inner (hstatement : s.isStatement = true)
    (hss : s.inner.Pairwise fun t u ↦ (spanOf t).Before (spanOf u))
    (hembraces : ∀ t ∈ s.inner, (spanOf s).Embraces (spanOf t)) (h : ∀ t ∈ s.inner, Staggered t) : Staggered s := by
  obtain ⟨event, hstarts⟩ := starts_statement hstatement
  have hbelow : ∀ a ∈ s.inner.flatMap (fun t ↦ starts t.nodes),
      (spanOf s).start < a.2.start ∧ a.2.start < (spanOf s).stop := by
    intro a ha
    obtain ⟨t, ht, ha⟩ := List.mem_flatMap.1 ha
    obtain ⟨hstart, hinside, hstop⟩ := hembraces t ht
    refine ⟨hstart.trans_le ((h t ht).first a ha), ?_⟩
    rcases (h t ht).within a ha with heq | hlt
    · exact heq ▸ hinside
    · exact hlt.trans_le hstop
  constructor <;> rw [hstarts]
  · exact List.pairwise_cons.2 ⟨fun a ha ↦ (hbelow a ha).1, pairwise_starts hss h⟩
  · exact List.forall_mem_cons.2 ⟨le_rfl, fun a ha ↦ (hbelow a ha).1.le⟩
  · exact List.forall_mem_cons.2 ⟨.inl rfl, fun a ha ↦ .inr (hbelow a ha).2⟩

theorem SourceOrdered.below (h : SourceOrdered tree) {n : Node} (hn : n ∈ tree.nodes) : SourceOrdered n :=
  fun o ho ↦ h o (nodes_trans hn ho)

/-- Statements of a tree in source order are staggered. -/
theorem staggered_outermost (n : Node) (h : SourceOrdered n) : ∀ s ∈ n.outermost, Staggered s := by
  induction n using Node.induction with
  | gap => simp [Node.outermost]
  | mk i c p fs ih =>
    have hself : Node.mk i c p fs ∈ (Node.mk i c p fs).nodes := self_mem_nodes Node.mk_ne_gap
    have hinner : ∀ s ∈ (Node.mk i c p fs).inner, Staggered s := by
      intro s hs
      rw [inner_eq_flatMap] at hs
      obtain ⟨m, hm, hs⟩ := List.mem_flatMap.1 hs
      cases m with
      | gap => simp [Node.outermost] at hs
      | mk j d q gs => exact ih _ hm (h.below (child_mem_nodes hm Node.mk_ne_gap)) s hs
    cases hc : (Node.mk i c p fs).isStatement with
    | true =>
      rw [outermost_of_statement hc]
      exact List.forall_mem_singleton.2 (staggered_of_inner hc (h _ hself).1 ((h _ hself).2 hc) hinner)
    | false =>
      rw [outermost_of_not_statement hc]
      exact hinner

/-- In preorder, statements start later and later. -/
theorem SourceOrdered.increasing (h : SourceOrdered tree) :
    (starts tree.nodes).Pairwise fun a b ↦ a.2.start < b.2.start := by
  rw [starts_nodes_eq_flatMap]
  refine pairwise_starts ?_ (staggered_outermost tree h)
  cases tree with
  | gap => simp [Node.outermost]
  | mk i c p fs =>
    cases hc : (Node.mk i c p fs).isStatement with
    | true =>
      rw [outermost_of_statement hc]
      exact List.pairwise_singleton _ _
    | false =>
      rw [outermost_of_not_statement hc]
      exact (h _ (self_mem_nodes Node.mk_ne_gap)).1

end Preorder

/-! ## Enrolment -/

def statementSpan? (e : Entry Kind) : Option Span := if e.kind = .statement then some e.span else none

def statementSpans (sites : List Site) : List Span := (statementSites sites).map (·.2)

/-- No statement is accepted or refused. -/
structure Spares (e : Enrolment) : Prop where
  accepted : ∀ a ∈ e.accepted, a.2.kind ≠ .statement ∧ a.2.key = keyOf a.2.kind a.2.span
  refused : ∀ key ∈ e.refused, ∃ kind span, kind ≠ .statement ∧ key = keyOf kind span

section Enrolment

variable {plan : Plan} {m : Metadata Kind} {sites : List Site} {e f : Enrolment}

theorem Spares.andThen (he : Spares e) (hf : Spares f) : Spares (e.andThen f) where
  accepted := List.forall_mem_append.2 ⟨he.accepted, hf.accepted⟩
  refused := List.forall_mem_append.2 ⟨he.refused, hf.refused⟩

theorem spares_nothing (m : Metadata Kind) (tags : List Tag) : Spares ⟨m, tags, [], []⟩ :=
  ⟨fun _ h ↦ (by cases h), fun _ h ↦ (by cases h)⟩

theorem spares_offer {entry : Entry Kind} (hkind : entry.kind ≠ .statement)
    (hkey : entry.key = keyOf entry.kind entry.span) (m : Metadata Kind) (event : Event) :
    Spares (offer m event entry) := by
  unfold offer
  split
  · exact ⟨List.forall_mem_singleton.2 ⟨hkind, hkey⟩, fun _ h ↦ (by cases h)⟩
  · exact ⟨fun _ h ↦ (by cases h), List.forall_mem_singleton.2 ⟨_, _, hkind, hkey⟩⟩

theorem spares_offerArms (group : Int) (a : Nat) (arms : List (Event × Span)) (m : Metadata Kind) :
    Spares (offerArms group a arms m) := by
  induction arms generalizing a m with
  | nil => exact spares_nothing m []
  | cons arm arms ih =>
    obtain ⟨event, span⟩ := arm
    have hkind : (armEntry group a span).kind ≠ .statement := by simp [armEntry]
    exact (spares_offer hkind rfl m event).andThen (ih (a + 1) _)

/-- Sites of other kinds spare the entries of statements. -/
theorem spares_enrol {site : Site} (h : site.statement? = none) (m : Metadata Kind) : Spares (enrol plan m site) := by
  cases site with
  | unit event kind span name =>
    have hkind : kind ≠ .statement := by
      rintro rfl
      cases h
    rw [enrol]
    split
    · exact spares_offer hkind rfl m event
    · exact spares_nothing m _
  | fork construct span arms =>
    rw [enrol]
    split
    · split
      · exact spares_nothing m []
      · exact ⟨(spares_offerArms _ 0 arms _).accepted, (spares_offerArms _ 0 arms _).refused⟩
    · exact spares_nothing m _
  | quiet event => exact spares_nothing m _
  | silent i => exact spares_nothing m _

theorem Spares.accepted_eq (h : Spares e) : (e.accepted.filterMap fun a ↦ statementSpan? a.2) = [] :=
  List.filterMap_eq_nil_iff.2 fun a ha ↦ if_neg (h.accepted a ha).1

theorem Spares.not_refused (h : Spares e) (span : Span) : keyOf .statement span ∉ e.refused := by
  intro hrefused
  obtain ⟨kind, span', hkind, hkey⟩ := h.refused _ hrefused
  exact hkind (keyOf_eq_iff.1 hkey).1.symm

theorem Spares.not_mem_keys (h : Spares e) (henrols : Enrols m e) {span : Span}
    (hnew : keyOf .statement span ∉ m.keys) :
    keyOf .statement span ∉ e.record.keys := by
  rw [henrols.keys_eq]
  intro hmem
  rcases List.mem_append.1 hmem with hmem | hmem
  · exact hnew hmem
  · obtain ⟨a, ha, hkey⟩ := List.mem_map.1 hmem
    obtain ⟨hkind, hown⟩ := h.accepted a ha
    exact hkind (keyOf_eq_iff.1 (hown.symm.trans hkey)).1

theorem exists_unit_of_statement? {site : Site} {start : Event × Span} (h : site.statement? = some start) :
    ∃ name, site = .unit start.1 .statement start.2 name := by
  unfold Site.statement? at h
  split at h
  next =>
    cases h
    exact ⟨_, rfl⟩
  next => cases h

/-- A statement with a new span is accepted. -/
theorem enrol_statement (hm : m.Tidy) {event : Event} {span : Span} {name : Option String}
    (hcounts : plan.counts .statement = true) (hnew : keyOf .statement span ∉ m.keys) :
    (enrol plan m (.unit event .statement span name)).accepted =
        [(event, { key := keyOf .statement span, kind := .statement, span, name })] ∧
      (enrol plan m (.unit event .statement span name)).refused = [] := by
  rw [enrol, if_pos hcounts, offer, hm.add_of_not_mem hnew]
  exact ⟨rfl, rfl⟩

/-- Statements with distinct spans do not get in each other's way. -/
theorem enrolAll_statements (plan : Plan) (hm : m.Tidy) (hproper : ∀ site ∈ sites, site.Proper)
    (hnodup : (statementSpans sites).Nodup) (hnew : ∀ span ∈ statementSpans sites, keyOf .statement span ∉ m.keys) :
    ((enrolAll plan m sites).accepted.filterMap fun a ↦ statementSpan? a.2) =
        (if plan.counts .statement then statementSpans sites else []) ∧
      ∀ span, keyOf .statement span ∉ (enrolAll plan m sites).refused := by
  induction sites generalizing m with
  | nil => simp [statementSpans]
  | cons site rest ih =>
    obtain ⟨hsite, hothers⟩ := List.forall_mem_cons.1 hproper
    have henrols := enrols_site plan hm hsite
    rw [enrolAll_cons]
    simp only [Enrolment.andThen, List.filterMap_append, List.mem_append, not_or]
    cases hstatement : site.statement? with
    | none =>
      have hspans : statementSpans (site :: rest) = statementSpans rest := by
        rw [statementSpans, statementSites, List.filterMap_cons_none hstatement]
        rfl
      rw [hspans] at hnodup hnew ⊢
      have hspares : Spares (enrol plan m site) := spares_enrol hstatement m
      obtain ⟨haccepted, hrefused⟩ :=
        ih henrols.tidy hothers hnodup fun span hspan ↦ hspares.not_mem_keys henrols (hnew span hspan)
      rw [hspares.accepted_eq, List.nil_append]
      exact ⟨haccepted, fun span ↦ ⟨hspares.not_refused span, hrefused span⟩⟩
    | some start =>
      obtain ⟨name, rfl⟩ := exists_unit_of_statement? hstatement
      have hspans : statementSpans (.unit start.1 .statement start.2 name :: rest) = start.2 :: statementSpans rest :=
        rfl
      rw [hspans] at hnodup hnew ⊢
      obtain ⟨hother, hnodup⟩ := List.nodup_cons.1 hnodup
      obtain ⟨hspan, hnew⟩ := List.forall_mem_cons.1 hnew
      cases hcounts : plan.counts .statement with
      | false =>
        have hnone : enrol plan m (.unit start.1 .statement start.2 name) = ⟨m, [.label start.1 none], [], []⟩ := by
          rw [enrol, if_neg (by simp [hcounts])]
        have hrest := ih hm hothers hnodup hnew
        rw [hcounts] at hrest
        simpa [hnone] using hrest
      | true =>
        obtain ⟨haccepted, hrefused⟩ := enrol_statement hm hcounts hspan
        have hkeys : ∀ span ∈ statementSpans rest,
            keyOf .statement span ∉ (enrol plan m (.unit start.1 .statement start.2 name)).record.keys := by
          intro span hmem
          rw [henrols.keys_eq, haccepted]
          intro hkey
          rcases List.mem_append.1 hkey with hkey | hkey
          · exact hnew span hmem hkey
          · obtain rfl := (keyOf_eq_iff.1 (List.mem_singleton.1 hkey)).2
            exact hother hmem
        obtain ⟨hrest, hnone⟩ := ih henrols.tidy hothers hnodup hkeys
        rw [hcounts] at hrest
        rw [haccepted, hrefused, hrest]
        exact ⟨rfl, fun span ↦ ⟨List.not_mem_nil, hnone span⟩⟩

end Enrolment

/-! ## Whole passes -/

/-- In the record of a pass over a tree of the grammar with the places of a parser, statements come in source order:
each entry of a statement starts after the entry of a statement before it. So none was refused. -/
theorem increasing_instrument {plan : Plan} {marks : Marks} {next : NodeId} {full : Bool} {cat : Category} {tree : Node}
    {i : Instrumented} (htree : Identified next tree) (hgrammar : tree.isA full cat = true)
    (hordered : SourceOrdered tree) (h : instrument plan marks next tree = .ok i) :
    ((i.record.entries.filter (·.kind = .statement)).Pairwise fun e e' ↦ e.span.start < e'.span.start) ∧
      ∀ span, keyOf .statement span ∉ refusals i.notes := by
  obtain ⟨-, -, -, hrecord, hrefused⟩ := instrument_spec htree h
  have hoffered : (statementSpans (sites plan marks tree)).Pairwise fun s t ↦ s.start < t.start :=
    List.pairwise_map.2 (hordered.increasing.sublist (inOrder_sites tree hgrammar).nodes)
  have hnodup : (statementSpans (sites plan marks tree)).Nodup := hoffered.imp fun hlt heq ↦ absurd hlt (by simp [heq])
  obtain ⟨haccepted, hnone⟩ := enrolAll_statements plan (Metadata.tidy_empty plan.filename)
    (nodeAccounts tree).inner.proper hnodup fun span _ ↦ List.not_mem_nil
  constructor
  · have hspans : ((roster plan marks tree).accepted.filterMap fun a ↦ statementSpan? a.2).Pairwise
        fun s t ↦ s.start < t.start := by
      rw [roster, haccepted]
      split
      · exact hoffered
      · exact .nil
    rw [hrecord, (enrols_roster plan marks tree).entries, List.pairwise_filter]
    refine List.pairwise_map.2 ((List.pairwise_filterMap.1 hspans).imp fun hlt hkind hkind' ↦ ?_)
    exact hlt _ (if_pos (of_decide_eq_true hkind)) _ (if_pos (of_decide_eq_true hkind'))
  · rwa [hrefused]

/-- A module with code of all kinds. -/
theorem increasing_instrument_nestedModule :
    SourceOrdered nestedModule ∧ ∃ i, instrument { filename := "m.py" } {} 24 nestedModule = .ok i ∧
      (i.record.entries.filter (·.kind = .statement)).length = 8 ∧
      ((i.record.entries.filter (·.kind = .statement)).Pairwise fun e e' ↦ e.span.start < e'.span.start) ∧
      ∀ span, keyOf .statement span ∉ refusals i.notes := by
  have hcount : (instrument { filename := "m.py" } {} 24 nestedModule).toOption.map
      (fun i ↦ (i.record.entries.filter (·.kind = .statement)).length) = some 8 := by decide +kernel
  have hgrammar : nestedModule.isA true .root = true := by decide +kernel
  have hordered : SourceOrdered nestedModule := by decide +kernel
  refine ⟨hordered, ?_⟩
  obtain ⟨i, h, hcount⟩ := exists_ok_of_map hcount
  exact ⟨i, h, hcount, increasing_instrument ⟨by decide, by decide⟩ hgrammar hordered h⟩

end Coverage.Pass
