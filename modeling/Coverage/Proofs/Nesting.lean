import Coverage.Proofs.Check.Complete
import Coverage.Proofs.Nesting.Arms
import Coverage.Proofs.Nesting.Filled
import Coverage.Proofs.Span

/-!
# No collisions on properly nested trees

A key stands for a kind and a span. In a properly nested tree whose clauses are shorter than their statements, no two
units of one kind have the same span: units of unrelated nodes start at different places, a statement or function is
longer than those below it, and an arm that is as long as one further down would make the lower decision point as
long as its own arm. So a pass offers no key twice, and nothing is refused.
-/

namespace Coverage.Pass

open Syntax Program

/-! ## Units -/

/-- The kinds and spans of the entries that are offered for a site. -/
def Site.units : Site → List (Kind × Span)
  | .unit _ kind span _ => [(kind, span)]
  | .fork _ _ arms => arms.map fun arm ↦ (.branch, arm.2)
  | .quiet _ | .silent _ => []

theorem keys_eq_map_units (site : Site) : site.keys = site.units.map fun u ↦ keyOf u.1 u.2 := by
  cases site <;> simp [Site.keys, Site.units]

/-- Sites that offer no unit twice offer no key twice. -/
theorem nodup_keys {sites : List Site} (h : (sites.flatMap Site.units).Nodup) : (sites.flatMap Site.keys).Nodup := by
  have hkeys : sites.flatMap Site.keys = (sites.flatMap Site.units).map fun u ↦ keyOf u.1 u.2 := by
    rw [List.map_flatMap]
    exact congrArg (sites.flatMap ·) (funext keys_eq_map_units)
  rw [hkeys]
  refine h.map fun u v heq ↦ ?_
  obtain ⟨hkind, hspan⟩ := keyOf_inj heq
  exact Prod.ext hkind hspan

/-- What is offered for an occurrence: kind and span. -/
inductive Occurrence.Takes (plan : Plan) (o : Occurrence) : Kind → Span → Prop
  | start (h : o.startsUnit = true) : o.Takes plan .statement (spanOf o.node)
  | entry (h : entrySites o.node ≠ []) : o.Takes plan .function (spanOf o.node)
  | arm {e : Node × Node} (hchained : o.chained = false) (he : e ∈ armEnds plan o.node) :
    o.Takes plan .branch (boundsSpan e)

section Takes

variable (plan : Plan) {o : Occurrence} {u : Kind × Span}

theorem takes_of_start (h : u ∈ (if o.startsUnit then startSites o.node else []).flatMap Site.units) :
    u.1 = .statement ∧ o.Takes plan u.1 u.2 := by
  split at h
  next hstarts =>
    cases hnode : o.node with
    | gap => simp [hnode, startSites] at h
    | mk i c p fs =>
      obtain rfl : u = (.statement, spanOf o.node) := by simpa [hnode, startSites, Site.units] using h
      exact ⟨rfl, .start hstarts⟩
  next => cases h

theorem takes_of_entry (h : u ∈ (entrySites o.node).flatMap Site.units) : u.1 = .function ∧ o.Takes plan u.1 u.2 := by
  have hsome : entrySites o.node ≠ [] := by
    intro hnil
    rw [hnil] at h
    cases h
  have heq : u = (.function, spanOf o.node) := by
    unfold entrySites at h
    split at h
    next heq => simpa [Site.units, heq] using h
    next heq => simpa [Site.units, heq] using h
    next => cases h
  subst heq
  exact ⟨rfl, .entry hsome⟩

/-- The arms of a fork are branches that its node takes. -/
theorem takes_of_fork (hcomplete : o.node.complete = true)
    (h : u ∈ (if o.chained then [] else forkSites plan o.node).flatMap Site.units) :
    u.1 = .branch ∧ o.Takes plan u.1 u.2 := by
  split at h
  next => cases h
  next hchained =>
    unfold forkSites at h
    split at h
    · cases h
    · obtain ⟨arm, harm, rfl⟩ : ∃ arm ∈ armsOf plan o.node, (Kind.branch, arm.2) = u := by
        simpa [Site.units] using h
      obtain ⟨e, he, heq⟩ := List.mem_map.1 ((armsOf_sublist plan hcomplete).subset (List.mem_map_of_mem harm))
      rw [← heq]
      exact ⟨rfl, .arm (by simpa using hchained) he⟩

theorem takes_of_mem (hcomplete : o.node.complete = true) (h : u ∈ (o.registrations plan).flatMap Site.units) :
    o.Takes plan u.1 u.2 := by
  rw [Occurrence.registrations, List.flatMap_append, List.flatMap_append, List.mem_append, List.mem_append] at h
  rcases h with (h | h) | h
  · exact (takes_of_start plan h).2
  · exact (takes_of_entry plan h).2
  · exact (takes_of_fork plan hcomplete h).2

end Takes

/-! ## Units of one node -/

section Nested

variable {plan : Plan} {full : Bool} {tree n m : Node} {o o' : Occurrence} {kind : Kind} {span : Span}

/-- The arms of a decision point have different spans. -/
theorem nodup_arms (h : ProperlyNested full tree) (hn : n ∈ tree.nodes) :
    ((armEnds plan n).map boundsSpan).Nodup := by
  have hfirsts := List.pairwise_map.1 (pairwise_firsts_armEnds plan h hn)
  refine List.pairwise_map.2 (hfirsts.imp_of_mem fun {e e'} he he' hbeside heq ↦ ?_)
  obtain ⟨⟨hmem, hplace⟩, -⟩ := mem_nodes_of_armEnds h hn e he
  obtain ⟨⟨hmem', hplace'⟩, -⟩ := mem_nodes_of_armEnds h hn e' he'
  have htree := nodes_trans hn hmem
  have htree' := nodes_trans hn hmem'
  exact (h.apart e.1 htree e'.1 htree' hplace hplace' hbeside).start_ne (h.nonempty e.1 htree hplace)
    (h.nonempty e'.1 htree' hplace') (start_eq_of_boundsSpan heq)

/-- The units of one node have different spans. -/
theorem nodup_units (h : ProperlyNested full tree) (ho : o.node ∈ tree.nodes) :
    ((o.registrations plan).flatMap Site.units).Nodup := by
  have hcomplete := h.complete o.node ho
  have hstart : ((if o.startsUnit then startSites o.node else []).flatMap Site.units).Nodup := by
    split
    · cases o.node <;> simp [startSites, Site.units]
    · exact .nil
  have hentry : ((entrySites o.node).flatMap Site.units).Nodup := by
    unfold entrySites
    split <;> simp [Site.units]
  have hfork : ((if o.chained then [] else forkSites plan o.node).flatMap Site.units).Nodup := by
    split
    · exact .nil
    · unfold forkSites
      split
      · exact .nil
      · have harms : ((armsOf plan o.node).map (·.2)).Nodup := (nodup_arms h ho).sublist (armsOf_sublist plan hcomplete)
        simpa [Site.units, Function.comp_def] using harms.map (Prod.mk_right_injective Kind.branch)
  rw [Occurrence.registrations, List.flatMap_append, List.flatMap_append, List.nodup_append', List.nodup_append']
  refine ⟨⟨hstart, hentry, fun u hu hu' ↦ ?_⟩, hfork, fun u hu hu' ↦ ?_⟩
  · have hkind := (takes_of_start plan hu).1
    rw [(takes_of_entry plan hu').1] at hkind
    cases hkind
  · have hkind := (takes_of_fork plan hcomplete hu').1
    rcases List.mem_append.1 hu with hu | hu
    · rw [(takes_of_start plan hu).1] at hkind
      cases hkind
    · rw [(takes_of_entry plan hu).1] at hkind
      cases hkind

/-! ## Units of unrelated nodes -/

theorem placeable_of_isStatement (h : n.isStatement = true) : n.placeable = true := by
  cases n with
  | gap => cases h
  | mk i c p fs =>
    have hrole : c.role = .statement := by simpa [Node.isStatement, Node.cls?, NodeClass.isStatement] using h
    simp [Node.placeable, Node.cls?, hrole, Role.placeable]

theorem placeable_of_entrySites (h : entrySites n ≠ []) : n.placeable = true := by
  unfold entrySites at h
  split at h
  · rfl
  · rfl
  · exact absurd rfl h

theorem isStatement_of_startsUnit (h : o.startsUnit = true) : o.node.isStatement = true := by
  simp only [Occurrence.startsUnit, Bool.and_eq_true] at h
  exact h.1.1.1

/-- A unit of a node starts inside the node. -/
theorem Occurrence.Takes.starts (h : ProperlyNested full tree) (ho : o.node ∈ tree.nodes)
    (ht : o.Takes plan kind span) :
    o.node.placeable = true ∧ (spanOf o.node).start ≤ span.start ∧ span.start < (spanOf o.node).stop := by
  cases ht with
  | start hstarts =>
    have hplace := placeable_of_isStatement (isStatement_of_startsUnit hstarts)
    exact ⟨hplace, le_rfl, h.nonempty o.node ho hplace⟩
  | entry hentry =>
    have hplace := placeable_of_entrySites hentry
    exact ⟨hplace, le_rfl, h.nonempty o.node ho hplace⟩
  | @arm e hchained he =>
    obtain ⟨⟨hmem, hplace⟩, -⟩ := mem_nodes_of_armEnds h ho e he
    have hcovers := (covers_of_armEnds h ho he).1
    exact ⟨(plain_of_armEnds he).2, hcovers.1, (h.nonempty e.1 (nodes_trans ho hmem) hplace).trans_le hcovers.2⟩

theorem not_takes_of_unrelated (h : ProperlyNested full tree) (ho : o.node ∈ tree.nodes) (ho' : o'.node ∈ tree.nodes)
    (hbeside : o.node.Unrelated o'.node) (ht : o.Takes plan kind span) : ¬o'.Takes plan kind span := by
  intro ht'
  obtain ⟨hplace, hle, hlt⟩ := ht.starts h ho
  obtain ⟨hplace', hle', hlt'⟩ := ht'.starts h ho'
  rcases h.apart o.node ho o'.node ho' hplace hplace' hbeside with hbefore | hbefore
  · exact absurd (hlt.trans_le (hbefore.trans hle')) (lt_irrefl _)
  · exact absurd (hlt'.trans_le (hbefore.trans hle)) (lt_irrefl _)

/-! ## Units of a node below another -/

/-- A statement that holds statements is compound, and they stand below nodes with a place, or below cases. -/
theorem compound_contents (c : NodeClass) : c.isStatement = false ∨ ∀ content ∈ c.contents,
    content.category?.all (fun cat ↦
      !cat.holdsStatements || (c.isCompound && (cat.located || c == .matchStmt))) = true := by
  cases c with
  | plain c => cases c <;> decide
  | functionDef async | forLoop async | tryStmt star =>
    exact .inr (by simp [NodeClass.contents, NodeClass.grammar, Content.category?, Category.holdsStatements,
      NodeClass.isCompound, Category.located])
  | _ => decide

theorem category_unique {cat cat' : Category} (h : n.isA full cat = true) (h' : n.isA full cat' = true) :
    cat = cat' := by
  cases n with
  | gap => simp [Node.isA] at h
  | mk i c p fs => exact (isA_mk.1 h).1.symm.trans (isA_mk.1 h').1

theorem isWider_of_entrySites (h : entrySites n ≠ []) : n.isWider = true := by
  unfold entrySites at h
  split at h
  · rfl
  · rfl
  · exact absurd rfl h

/-- A function has a body beside its arguments and decorators. -/
theorem exists_body (h : ProperlyNested full tree) (hn : n ∈ tree.nodes) (hf : entrySites n ≠ []) :
    ∃ q ∈ n.children, q.placeable = true ∧ q ∉ n.decorators := by
  obtain ⟨cat, hcat⟩ := h.isA hn
  unfold entrySites at hf
  split at hf
  next i async p name fs =>
    cases shape_of_fits (h.fits hn) with
    | @functionDef _ _ args body decorators returns comment hargs _ hbody =>
      have hsome : body ≠ [] := (stocked_mk.1 (stocked_of_mem_nodes h.stocked _ hn)).1 body rfl
      obtain ⟨q, hq⟩ := List.exists_mem_of_ne_nil _ hsome
      have hstatement := isA_of_mem hbody hq
      refine ⟨q, many_subset_children (by simp) hq, placeable_of_isA hstatement rfl, fun hd ↦ ?_⟩
      cases category_unique hstatement (mem_decorators hcat hd).2
  next i p fs =>
    cases shape_of_fits (h.fits hn) with
    | lambda hargs hbody =>
      exact ⟨_, child_mem_children (by simp), placeable_of_isA hbody rfl, List.not_mem_nil⟩
  next => exact absurd rfl hf

/-- A statement is longer than a statement below it. -/
theorem spanOf_ne_of_statement (h : ProperlyNested full tree) (hn : n ∈ tree.nodes) (hs : n.isStatement = true)
    {k : Node} (hk : k ∈ n.children) (hm : m ∈ k.nodes) (hs' : m.isStatement = true) : spanOf m ≠ spanOf n := by
  have hplace := placeable_of_isStatement hs
  have hplace' := placeable_of_isStatement hs'
  cases n with
  | gap => cases hk
  | mk i c p fs =>
    have hfits := h.fits hn
    rcases isA_of_mem_fields hfits hk with rfl | ⟨content, hcontent, cat, hcat, hisA⟩
    · cases hm
    have hholds : cat.holdsStatements = true := by
      by_contra hnot
      have hnone := not_isStatement_of_mem_nodes hisA (Bool.eq_false_iff.2 hnot) m hm
      rw [hs'] at hnone
      cases hnone
    have hc : c.isStatement = true := hs
    have hclass := (compound_contents c).resolve_left (by simp [hc]) content hcontent
    simp only [hcat, hholds, Option.all_some, Bool.not_true, Bool.false_or, Bool.and_eq_true, Bool.or_eq_true,
      beq_iff_eq] at hclass
    rcases hclass with ⟨hcompound, hlocated | rfl⟩
    · exact h.spanOf_ne_of_child hn (by simp [Node.isWider, Node.cls?, hcompound]) hplace hk
        (placeable_of_isA hisA hlocated) hm hplace'
    · cases shape_of_fits hfits with
      | @matchStmt subject cases hsubject _ hcases =>
        have hne : subject ≠ k := by
          rintro rfl
          rw [category_unique hisA hsubject] at hholds
          cases hholds
        exact h.spanOf_ne_of_sibling hn hplace hk hm hplace' (child_mem_children (by simp))
          (placeable_of_isA hsubject rfl) List.not_mem_nil hne

/-- A function is longer than a function below it. -/
theorem spanOf_ne_of_function (h : ProperlyNested full tree) (hn : n ∈ tree.nodes) (hf : entrySites n ≠ [])
    {k : Node} (hk : k ∈ n.children) (hm : m ∈ k.nodes) (hf' : entrySites m ≠ []) : spanOf m ≠ spanOf n := by
  have hplace := placeable_of_entrySites hf
  have hplace' := placeable_of_entrySites hf'
  cases hkplace : k.placeable with
  | true => exact h.spanOf_ne_of_child hn (isWider_of_entrySites hf) hplace hk hkplace hm hplace'
  | false =>
    obtain ⟨q, hq, hqplace, hnot⟩ := exists_body h hn hf
    refine h.spanOf_ne_of_sibling hn hplace hk hm hplace' hq hqplace hnot ?_
    rintro rfl
    rw [hqplace] at hkplace
    cases hkplace

/-- An end of an arm covers a node below the decision point that it overlaps, since it is not below that node. -/
theorem covers_of_overlap (h : ProperlyNested full tree) {a : Node} (ha : a ∈ tree.nodes) (hm : m ∈ tree.nodes)
    (hplace : a.placeable = true) (hplace' : m.placeable = true) (hend : a ∈ m.nodes → m = a)
    (hoverlap : ¬(spanOf a).Apart (spanOf m)) : (spanOf a).Covers (spanOf m) := by
  have hbelow : m ∈ a.nodes := by
    rcases h.mem_nodes_or ha hm hplace hplace' hoverlap with hin | hin
    · have heq := hend hin
      rwa [← heq] at hin ⊢
    · exact hin
  exact (h.covers_or_apart ha hplace hbelow hplace').resolve_right hoverlap

/-- An arm of a decision point is no arm of one further down. -/
theorem boundsSpan_ne_of_below (h : ProperlyNested full tree) (hclauses : StrictClauses tree) (hn : n ∈ tree.nodes)
    (ho : o ∈ descendants plan n) (hchained : o.chained = false) {e e' : Node × Node} (he : e ∈ armEnds plan n)
    (he' : e' ∈ armEnds plan o.node) : boundsSpan e ≠ boundsSpan e' := by
  intro heq
  have hm : o.node ∈ tree.nodes := nodes_trans hn (mem_nodes_of_descendants ho)
  have hplace := (plain_of_armEnds he').2
  obtain ⟨⟨hfirst, hfirst'⟩, hlast, hlast'⟩ := mem_nodes_of_armEnds h hn e he
  obtain ⟨⟨hlow, hlow'⟩, hhigh, hhigh'⟩ := mem_nodes_of_armEnds h hm e' he'
  obtain ⟨hendfirst, hendlast⟩ := eq_of_end_mem h hn ho hchained hplace e he
  obtain ⟨hcoverfirst, hcoverlast⟩ := covers_of_armEnds h hm he'
  have hstart := start_eq_of_boundsSpan heq
  have hstop := stop_eq_of_boundsSpan heq
  have hoverlap : ¬(spanOf e.1).Apart (spanOf o.node) :=
    Span.not_apart_of_start hcoverfirst (h.nonempty e'.1 (nodes_trans hm hlow) hlow')
      (h.nonempty e.1 (nodes_trans hn hfirst) hfirst') hstart
  have hoverlap' : ¬(spanOf e.2).Apart (spanOf o.node) :=
    Span.not_apart_of_stop hcoverlast (h.nonempty e'.2 (nodes_trans hm hhigh) hhigh')
      (h.nonempty e.2 (nodes_trans hn hlast) hlast') hstop
  have hover := covers_of_overlap h (nodes_trans hn hfirst) hm hfirst' hplace hendfirst hoverlap
  have hover' := covers_of_overlap h (nodes_trans hn hlast) hm hlast' hplace hendlast hoverlap'
  -- Both ends of the upper arm reach over the lower decision point, so the lower arm fills it.
  refine boundsSpan_ne_of_armEnds h hclauses hm e' he' (Span.eq_of_ends ?_ ?_)
  · exact le_antisymm (hstart ▸ hover.1) hcoverfirst.1
  · exact le_antisymm hcoverlast.2 (hstop ▸ hover'.2)

/-- Nothing is offered for an occurrence that is offered for one further down. -/
theorem not_takes_of_below (h : ProperlyNested full tree) (hclauses : StrictClauses tree) (ho : o.node ∈ tree.nodes)
    (hbelow : o' ∈ descendants plan o.node) (ht : o.Takes plan kind span) : ¬o'.Takes plan kind span := by
  intro ht'
  obtain ⟨k, hk, hmem⟩ := mem_children_of_descendants hbelow
  generalize hspan : span = span' at ht'
  cases ht with
  | start hstarts =>
    cases ht' with
    | start hstarts' =>
      exact spanOf_ne_of_statement h ho (isStatement_of_startsUnit hstarts) hk hmem
        (isStatement_of_startsUnit hstarts') hspan.symm
  | entry hentry =>
    cases ht' with
    | entry hentry' => exact spanOf_ne_of_function h ho hentry hk hmem hentry' hspan.symm
  | arm hchained he =>
    cases ht' with
    | arm hchained' he' => exact boundsSpan_ne_of_below h hclauses ho hbelow hchained' he he' hspan

/-- No unit is offered twice in a properly nested tree whose clauses are shorter than their statements. -/
theorem nodup_registrations (plan : Plan) (h : ProperlyNested full tree) (hclauses : StrictClauses tree) :
    ((registrations plan tree).flatMap Site.units).Nodup := by
  have hnodes : ∀ o ∈ descendants plan tree, o.node ∈ tree.nodes := fun o ho ↦ mem_nodes_of_descendants ho
  have htakes : ∀ o ∈ descendants plan tree, ∀ u ∈ (o.registrations plan).flatMap Site.units,
      o.Takes plan u.1 u.2 := fun o ho u hu ↦ takes_of_mem plan (h.complete o.node (hnodes o ho)) hu
  rw [registrations, offered, List.flatMap_assoc, List.nodup_flatMap]
  refine ⟨fun o ho ↦ nodup_units h (hnodes o ho), (pairwise_descendants h.distinct).imp_of_mem ?_⟩
  intro o o' ho ho' hpair u hu hu'
  rcases hpair with hbelow | hbeside
  · exact not_takes_of_below h hclauses (hnodes o ho) hbelow (htakes o ho u hu) (htakes o' ho' u hu')
  · exact not_takes_of_unrelated h (hnodes o ho) (hnodes o' ho') hbeside (htakes o ho u hu) (htakes o' ho' u hu')

end Nested

/-! ## Passes over properly nested modules -/

theorem flatMap_keys_offers (sites : List Site) : (offers sites).flatMap Site.keys = sites.flatMap Site.keys := by
  induction sites with
  | nil => rfl
  | cons site rest ih =>
    cases site with
    | unit event kind span name => rw [offers_unit, List.flatMap_cons, List.flatMap_cons, ih]
    | fork construct span arms => rw [offers_fork, List.flatMap_cons, List.flatMap_cons, ih]
    | quiet event | silent i => exact ih

/-- A pass over a properly nested module whose clauses are shorter than their statements refuses nothing: the keys of
all units are different, all of them are in the record, and every group has an entry for each of its arms. -/
theorem instrument_of_properlyNested {plan : Plan} {full : Bool} {next j : NodeId} {place : Place} {fs : List Field}
    (hnested : ProperlyNested full (.mk j .module place fs)) (hclauses : StrictClauses (.mk j .module place fs))
    (hbelow : ∀ i ∈ (Node.mk j .module place fs).ids, i < next) (hcounts : ∀ kind, plan.counts kind = true) :
    ∃ i, instrument plan {} next (.mk j .module place fs) = .ok i ∧ refusals i.notes = [] ∧
      i.record.keys.Perm ((registrations plan (.mk j .module place fs)).flatMap Site.keys) ∧
      ((registrations plan (.mk j .module place fs)).flatMap Site.keys).Nodup ∧ i.record.Filled := by
  obtain ⟨tree, htree⟩ : ∃ tree, tree = Node.mk j .module place fs := ⟨_, rfl⟩
  have horder : (offers (sites plan {} tree)).Perm (registrations plan tree) := by
    subst htree
    exact perm_offers_module hnested.grammar
  rw [← htree] at hnested hclauses hbelow ⊢
  obtain ⟨i, hi⟩ := instrument_ok_of_placed plan next hnested.grammar hnested.stocked hnested.placed
  obtain ⟨-, -, -, hrecord, hrefused⟩ := instrument_spec ⟨hnested.distinct, hbelow⟩ hi
  have hfresh : ((registrations plan tree).flatMap Site.keys).Nodup :=
    nodup_keys (nodup_registrations plan hnested hclauses)
  have hkeys : ((sites plan {} tree).flatMap Site.keys).Perm ((registrations plan tree).flatMap Site.keys) := by
    rw [← flatMap_keys_offers]
    exact horder.flatMap_right _
  obtain ⟨hnone, hfilled⟩ := filled_enrolAll hcounts (Metadata.tidy_empty plan.filename) (fun g hg ↦ by cases hg)
    (nodeAccounts tree).inner.proper (by simpa [Metadata.keys] using hkeys.nodup_iff.2 hfresh)
  have hall := (keys_enrolAll hcounts { filename := plan.filename } (sites plan {} tree)).1
  rw [hnone, List.append_nil] at hall
  refine ⟨i, hi, hrefused.trans hnone, ?_, hfresh, ?_⟩
  · rw [hrecord]
    exact hall.trans hkeys
  · rw [hrecord]
    exact hfilled

/-- A function with a decorator, a lambda as a default and a docstring. Its body is an `if` chain with an operator in
the first test and a `try` in the second body, and a loop. -/
def nestedModule : Node :=
  .mk 0 .module {} [.many
    [.mk 1 (.functionDef false) ⟨some 2, some 0, some 12, some 12⟩
      [.text "f",
        .child (.mk 2 (.plain .arguments) {}
          [.many [], .many [.mk 3 (.plain .arg) (placeAt 2 6) [.text "x", .none, .none]], .none, .many [], .many [],
            .none, .many [.mk 4 .lambda ⟨some 2, some 8, some 2, some 17⟩
              [.child (.mk 5 (.plain .arguments) {}
                [.many [], .many [], .none, .many [], .many [], .none, .many []]),
                .child (.mk 6 (.plain .constant) (placeAt 2 16) [.constant (.int 0), .none])]]]),
        .many [.mk 7 (.plain .exprStmt) ⟨some 3, some 4, some 3, some 9⟩
          [.child (.mk 8 (.plain .constant) ⟨some 3, some 4, some 3, some 9⟩ [.constant (.str "doc"), .none])],
          .mk 9 .ifStmt ⟨some 4, some 4, some 10, some 16⟩
            [.child (.mk 10 .boolOp ⟨some 4, some 7, some 4, some 14⟩
              [.child (.mk 11 (.plain .and) {} []),
                .many [.mk 12 (.plain .constant) (placeAt 4 7) [.constant (.int 0), .none],
                  .mk 13 (.plain .constant) (placeAt 4 13) [.constant (.int 1), .none]]]),
              .many [.mk 14 (.plain .pass) ⟨some 5, some 8, some 5, some 12⟩ []],
              .many [.mk 15 .ifStmt ⟨some 6, some 4, some 10, some 16⟩
                [.child (.mk 16 (.plain .constant) (placeAt 6 9) [.constant (.int 1), .none]),
                  .many [.mk 17 (.tryStmt false) ⟨some 7, some 8, some 10, some 16⟩
                    [.many [.mk 18 (.plain .pass) ⟨some 8, some 12, some 8, some 16⟩ []], .many [], .many [],
                      .many [.mk 19 (.plain .pass) ⟨some 10, some 12, some 10, some 16⟩ []]]],
                  .many []]]],
          .mk 20 .whileLoop ⟨some 11, some 4, some 12, some 12⟩
            [.child (.mk 21 (.plain .constant) (placeAt 11 10) [.constant (.int 0), .none]),
              .many [.mk 22 (.plain .pass) ⟨some 12, some 8, some 12, some 12⟩ []], .many []]],
        .many [.mk 23 (.plain .constant) (placeAt 1 1) [.constant .none, .none]], .none, .none]],
    .many []]

theorem properlyNested_nestedModule : ProperlyNested true nestedModule where
  grammar := by decide +kernel
  stocked := by decide +kernel
  complete := by decide +kernel
  distinct := by decide +kernel
  placed := by decide +kernel
  nonempty := by decide +kernel
  apart := by decide +kernel
  within := by decide +kernel
  aside := by decide +kernel
  strict := by decide +kernel

/-- A module with code of all kinds. -/
theorem instrument_of_properlyNested_nestedModule :
    ProperlyNested true nestedModule ∧ StrictClauses nestedModule ∧
      ∃ i, instrument { filename := "m.py" } {} 24 nestedModule = .ok i ∧ refusals i.notes = [] ∧
        i.record.keys.Perm ((registrations { filename := "m.py" } nestedModule).flatMap Site.keys) ∧
        ((registrations { filename := "m.py" } nestedModule).flatMap Site.keys).Nodup ∧ i.record.Filled := by
  have hclauses : StrictClauses nestedModule := by
    unfold StrictClauses
    decide +kernel
  exact ⟨properlyNested_nestedModule, hclauses,
    instrument_of_properlyNested properlyNested_nestedModule hclauses (by decide +kernel) fun _ ↦ rfl⟩

/-- A loop over an `if` whose test stands between the two statements of its body. -/
def dividedBody : Node :=
  .mk 0 .module {} [.many
    [.mk 1 .whileLoop ⟨some 1, some 0, some 2, some 10⟩
      [.child (.mk 2 (.plain .name) (placeAt 1 6) [.text "a", .child (.mk 3 (.plain .load) {} [])]),
        .many [.mk 4 .ifStmt ⟨some 2, some 0, some 2, some 10⟩
          [.child (.mk 5 (.plain .name) (placeAt 2 4) [.text "b", .child (.mk 6 (.plain .load) {} [])]),
            .many [.mk 7 (.plain .pass) ⟨some 2, some 0, some 2, some 3⟩ [],
              .mk 8 (.plain .pass) ⟨some 2, some 7, some 2, some 10⟩ []],
            .many []]],
        .many []]],
    .many []]

theorem properlyNested_dividedBody : ProperlyNested true dividedBody where
  grammar := by decide +kernel
  stocked := by decide +kernel
  complete := by decide +kernel
  distinct := by decide +kernel
  placed := by decide +kernel
  nonempty := by decide +kernel
  apart := by decide +kernel
  within := by decide +kernel
  aside := by decide +kernel
  strict := by decide +kernel

/-- Without the condition on clauses there are collisions: the body of the `if` is as long as the `if`, which is the
body of the loop. -/
theorem dividedBody_collides :
    ProperlyNested true dividedBody ∧ ¬StrictClauses dividedBody ∧
      ∃ i, instrument { filename := "f.py" } {} 9 dividedBody = .ok i ∧ refusals i.notes = ["b2:0-2:10"] := by
  have hclauses : ¬StrictClauses dividedBody := by
    unfold StrictClauses
    decide +kernel
  have hnotes : (instrument { filename := "f.py" } {} 9 dividedBody).toOption.map (fun i ↦ refusals i.notes) =
      some ["b2:0-2:10"] := by
    decide +kernel
  refine ⟨properlyNested_dividedBody, hclauses, ?_⟩
  obtain ⟨i, h, hnotes⟩ := exists_ok_of_map hnotes
  exact ⟨i, h, hnotes⟩

end Coverage.Pass
