import Coverage.Proofs.Check
import Coverage.Proofs.Syntax.Nodes

/-!
# The check is complete

If nothing is marked and no line is excluded, the check looks at every node outside of annotations, in preorder, and
the walk needs the places of these nodes only. So the first of them that lacks its place stops the pass, and nothing
else does.
-/

namespace Coverage.Syntax

/-- The class of a node that must have a place but lacks one of the four numbers. -/
def Node.unplaced? : Node → Option NodeClass
  | .gap => none
  | .mk _ c p _ =>
    if c.role.required && (p.line.isNone || p.column.isNone || p.endLine.isNone || p.endColumn.isNone) then some c
    else none

mutual
/-- A node and the nodes below it, in preorder. Annotations are left out. -/
def Node.reached : Node → List Node
  | .gap => []
  | .mk i c p fs => .mk i c p fs :: fieldsReached c.fieldNames fs

def fieldsReached : List String → List Field → List Node
  | name :: names, f :: fs =>
    (if name == "annotation" || name == "returns" then [] else f.reached) ++ fieldsReached names fs
  | _, _ => []

def Field.reached : Field → List Node
  | .child n => n.reached
  | .many ns => nodesReached ns
  | _ => []

def nodesReached : List Node → List Node
  | [] => []
  | n :: ns => n.reached ++ nodesReached ns
end

theorem span_eq_none_iff {p : Place} :
    p.span? = none ↔ (p.line.isNone || p.column.isNone || p.endLine.isNone || p.endColumn.isNone) = true := by
  obtain ⟨l, c, el, ec⟩ := p
  cases l <;> cases c <;> cases el <;> cases ec <;> simp [Place.span?]

theorem unplaced_mk {i : NodeId} {c : NodeClass} {p : Place} {fs : List Field} :
    (Node.mk i c p fs).unplaced? = if c.role.required && p.span?.isNone then some c else none := by
  have hspan : p.span?.isNone = (p.line.isNone || p.column.isNone || p.endLine.isNone || p.endColumn.isNone) := by
    rw [Bool.eq_iff_iff, Option.isNone_iff_eq_none, span_eq_none_iff]
  rw [Node.unplaced?, hspan]

section Reached

variable {full : Bool} {cat : Category} {n : Node} {ns : List Node}

/-- A node that is not a gap is the first that is reached from it. -/
theorem reached_self (h : n.isA full cat = true) : n ∈ n.reached := by
  cases n with
  | gap => simp [Node.isA] at h
  | mk i c p fs =>
    rw [Node.reached]
    exact List.mem_cons_self

theorem nodesReached_of_mem {m : Node} (hn : n ∈ ns) (hm : m ∈ n.reached) : m ∈ nodesReached ns := by
  induction ns with
  | nil => cases hn
  | cons first ns ih =>
    rw [nodesReached, List.mem_append]
    rcases List.mem_cons.1 hn with rfl | hn
    · exact .inl hm
    · exact .inr (ih hn)

theorem nodesReached_of_are (h : nodesAre full false cat ns = true) (hn : n ∈ ns) : n ∈ nodesReached ns :=
  nodesReached_of_mem hn (reached_self (Pass.isA_of_mem h hn))

end Reached

mutual
theorem reached_subset_nodes : ∀ n : Node, n.reached ⊆ n.nodes
  | .gap => by simp [Node.reached]
  | .mk i c p fs => by
    rw [Node.reached, Node.nodes]
    exact List.cons_subset_cons _ (fieldsReached_subset_nodes c.fieldNames fs)

theorem fieldsReached_subset_nodes : ∀ (names : List String) (fs : List Field), fieldsReached names fs ⊆ fieldsNodes fs
  | [], _ => by rw [fieldsReached] <;> simp
  | _ :: _, [] => by rw [fieldsReached] <;> simp
  | name :: names, f :: fs => by
    rw [fieldsReached, fieldsNodes_cons]
    refine List.append_subset.2 ⟨List.subset_append_of_subset_left _ ?_,
      List.subset_append_of_subset_right _ (fieldsReached_subset_nodes names fs)⟩
    split
    · simp
    · exact fieldReached_subset_nodes f

theorem fieldReached_subset_nodes : ∀ f : Field, f.reached ⊆ f.children.flatMap Node.nodes
  | .child n => by simpa [Field.reached, Field.children] using reached_subset_nodes n
  | .many ns => by
    rw [Field.reached, Field.children, ← nodesNodes_eq_flatMap]
    exact nodesReached_subset_nodes ns
  | .none | .text _ | .number _ | .constant _ | .names _ => by rw [Field.reached] <;> simp

theorem nodesReached_subset_nodes : ∀ ns : List Node, nodesReached ns ⊆ nodesNodes ns
  | [] => by simp [nodesReached]
  | n :: ns => by
    rw [nodesReached, nodesNodes]
    exact List.append_subset.2 ⟨List.subset_append_of_subset_left _ (reached_subset_nodes n),
      List.subset_append_of_subset_right _ (nodesReached_subset_nodes ns)⟩
end

end Coverage.Syntax

namespace Coverage.Pass

open Syntax

variable {plan : Plan} {marks : Marks} {full : Bool} {cat : Category} {next : NodeId} {tree : Node}

/-! ## The first node without a place -/

/-- What a check says that looks at nodes one after the other. -/
def verdict (ns : List Node) : Except Unlocated Unit :=
  match ns.findSome? Node.unplaced? with
  | some c => .error (.node c)
  | none => .ok ()

theorem verdict_nil : verdict [] = .ok () := rfl

theorem verdict_cons (n : Node) (ns : List Node) :
    verdict (n :: ns) = match n.unplaced? with
      | some c => .error (.node c)
      | none => verdict ns := by
  rw [verdict, List.findSome?_cons]
  cases n.unplaced? <;> rfl

theorem verdict_append (ns ms : List Node) : verdict (ns ++ ms) = (do verdict ns; verdict ms) := by
  rw [verdict, verdict, List.findSome?_append]
  cases ns.findSome? Node.unplaced? <;> rfl

mutual
/-- The check names the class of the first node without a place among those that it looks at. -/
theorem checkPlaces_eq_verdict : ∀ n : Node, checkPlaces plan marks n = verdict (checked plan marks n)
  | .gap => by rw [checkPlaces, checked, verdict_nil]
  | .mk i c p fs => by
    rw [checkPlaces, checked]
    split
    next => rw [verdict_nil]
    next =>
      rw [verdict_cons, unplaced_mk, ← checkFields_eq_verdict]
      split <;> rfl

theorem checkFields_eq_verdict : ∀ (names : List String) (fs : List Field),
    checkFields plan marks names fs = verdict (fieldsChecked plan marks names fs)
  | [], _ => by rw [checkFields, fieldsChecked, verdict_nil] <;> simp
  | _ :: _, [] => by rw [checkFields, fieldsChecked, verdict_nil] <;> simp
  | name :: names, f :: fs => by
    rw [checkFields, fieldsChecked, verdict_append, ← checkFields_eq_verdict names fs]
    cases isSkippedField name with
    | true => rfl
    | false =>
      rw [if_neg Bool.false_ne_true, ← checkField_eq_verdict f]
      rfl

theorem checkField_eq_verdict : ∀ f : Field, checkField plan marks f = verdict (fieldChecked plan marks f)
  | .child n => by rw [checkField, fieldChecked, checkPlaces_eq_verdict n]
  | .many ns => by rw [checkField, fieldChecked, checkNodes_eq_verdict ns]
  | .none | .text _ | .number _ | .constant _ | .names _ => by
    rw [checkField, fieldChecked, verdict_nil] <;> simp

theorem checkNodes_eq_verdict : ∀ ns : List Node, checkNodes plan marks ns = verdict (nodesChecked plan marks ns)
  | [] => by rw [checkNodes, nodesChecked, verdict_nil]
  | n :: ns => by
    rw [checkNodes, nodesChecked, verdict_append, checkPlaces_eq_verdict n, checkNodes_eq_verdict ns]
end

/-! ## Nothing marked, nothing excluded -/

theorem not_contains_empty (i : NodeId) : ({} : Marks).contains i = false := rfl

theorem not_excludes (hexcluded : plan.excluded = []) (n : Node) : plan.excludes n = false := by
  have hline : ∀ line, plan.excludesLine line = false := by
    intro line
    cases line <;> simp [Plan.excludesLine, hexcluded]
  simp [Plan.excludes, hline]

mutual
/-- The check looks at every node that is reached. -/
theorem checked_eq_reached (hexcluded : plan.excluded = []) : ∀ n : Node, checked plan {} n = n.reached
  | .gap => by rw [checked, Node.reached]
  | .mk i c p fs => by
    have hstop : (({} : Marks).contains i || (c.isStatement && plan.excludes (.mk i c p fs))) = false := by
      rw [not_contains_empty, not_excludes hexcluded, Bool.and_false, Bool.or_false]
    rw [checked, hstop, if_neg Bool.false_ne_true, Node.reached, fieldsChecked_eq_reached hexcluded c.fieldNames fs]

theorem fieldsChecked_eq_reached (hexcluded : plan.excluded = []) : ∀ (names : List String) (fs : List Field),
    fieldsChecked plan {} names fs = fieldsReached names fs
  | [], _ => by rw [fieldsChecked, fieldsReached] <;> simp
  | _ :: _, [] => by rw [fieldsChecked, fieldsReached] <;> simp
  | name :: names, f :: fs => by
    rw [fieldsChecked, fieldsReached, fieldChecked_eq_reached hexcluded f, fieldsChecked_eq_reached hexcluded names fs]
    rfl

theorem fieldChecked_eq_reached (hexcluded : plan.excluded = []) : ∀ f : Field, fieldChecked plan {} f = f.reached
  | .child n => by rw [fieldChecked, Field.reached, checked_eq_reached hexcluded n]
  | .many ns => by rw [fieldChecked, Field.reached, nodesChecked_eq_reached hexcluded ns]
  | .none | .text _ | .number _ | .constant _ | .names _ => by rw [fieldChecked, Field.reached] <;> simp

theorem nodesChecked_eq_reached (hexcluded : plan.excluded = []) :
    ∀ ns : List Node, nodesChecked plan {} ns = nodesReached ns
  | [] => by rw [nodesChecked, nodesReached]
  | n :: ns => by
    rw [nodesChecked, nodesReached, checked_eq_reached hexcluded n, nodesChecked_eq_reached hexcluded ns]
end

/-! ## What the walk needs -/

theorem mem_of_mem_ends {n : Node} {ns : List Node} (h : n ∈ ends ns) : n ∈ ns := by
  rcases List.mem_append.1 h with h | h
  · exact List.mem_of_head? (Option.mem_toList.1 h)
  · exact List.mem_of_getLast? (Option.mem_toList.1 h)

/-- The header and the `else` clause of a construct are measured as one or the other. -/
theorem mem_of_mem_exits {n header : Node} {orelse : List Node} (h : n ∈ exits header orelse) :
    n = header ∨ n ∈ orelse := by
  cases orelse with
  | nil => exact .inl (List.mem_singleton.1 h)
  | cons m ns => exact .inr (mem_of_mem_ends h)

/-- The nodes that the arms of a construct are measured by stand in its fields. -/
theorem reached_of_measured {c : NodeClass} {fs : List Field} (h : fieldsFit full c.contents fs = true) {n : Node}
    (hn : n ∈ measured c fs) : n ∈ fieldsReached c.fieldNames fs := by
  have hblock : ∀ {cat ns}, nodesAre full false cat ns = true → n ∈ ends ns → n ∈ nodesReached ns :=
    fun hns hn ↦ nodesReached_of_are hns (mem_of_mem_ends hn)
  have hexit : ∀ {header orelse}, header.isA full .expression = true →
      nodesAre full false .statement orelse = true → n ∈ exits header orelse →
        n ∈ header.reached ∨ n ∈ nodesReached orelse := by
    intro header orelse hheader horelse hn
    rcases mem_of_mem_exits hn with rfl | hn
    · exact .inl (reached_self hheader)
    · exact .inr (nodesReached_of_are horelse hn)
  cases shape_of_fits h with
  | ifStmt htest _ hbody horelse | whileLoop htest _ hbody horelse =>
    rw [measured, List.mem_append] at hn
    have hfound := hn.imp (hblock hbody) (hexit htest horelse)
    simp only [NodeClass.fieldNames, NodeClass.table, fieldsReached, Field.reached, List.mem_append]
    tauto
  | forLoop htarget hiter _ hbody horelse hcomment =>
    rw [measured, List.mem_append] at hn
    have hfound := hn.imp (hblock hbody) (hexit hiter horelse)
    simp only [NodeClass.fieldNames, NodeClass.table, fieldsReached, Field.reached, List.mem_append]
    tauto
  | ifExp htest hbody horelse =>
    simp only [NodeClass.fieldNames, NodeClass.table, fieldsReached, Field.reached, List.mem_append]
    rcases List.mem_pair.1 hn with rfl | rfl
    · exact .inr (.inl (reached_self hbody))
    · exact .inr (.inr (.inl (reached_self horelse)))
  | boolOp hop _ hvalues =>
    simp only [NodeClass.fieldNames, NodeClass.table, fieldsReached, Field.reached, List.mem_append]
    exact .inr (.inl (nodesReached_of_are hvalues hn))
  | matchStmt hsubject _ hcases =>
    obtain rfl := List.mem_singleton.1 hn
    simp only [NodeClass.fieldNames, NodeClass.table, fieldsReached, Field.reached, List.mem_append]
    exact .inl (reached_self hsubject)
  | matchCase hpattern hguard _ hbody =>
    simp only [NodeClass.fieldNames, NodeClass.table, fieldsReached, Field.reached, List.mem_append]
    rcases List.mem_cons.1 hn with rfl | hn
    · exact .inl (reached_self hpattern)
    · exact .inr (.inr (.inl (hblock hbody hn)))
  | tryStmt _ hbody hhandlers horelse hfinalbody =>
    rw [measured, List.mem_append] at hn
    simp only [NodeClass.fieldNames, NodeClass.table, fieldsReached, Field.reached, List.mem_append]
    rcases hn with hn | hn
    · exact .inl (hblock hbody hn)
    · split at hn
      · exact .inr (.inr (.inr (.inl (hblock hfinalbody hn))))
      · exact .inr (.inl (hblock hhandlers hn))
  | _ => cases hn

mutual
/-- The walk needs the places of nodes that are reached. -/
theorem neededAt_subset_reached {cat : Category} :
    ∀ n : Node, n.isA full cat = true → neededAt plan {} n ⊆ n.reached
  | .gap, _ => by simp [neededAt]
  | .mk i c p fs, h => by
    have hfs := (isA_mk.1 h).2
    rw [neededAt, not_contains_empty, Bool.false_and, if_neg Bool.false_ne_true, Node.reached]
    split
    · unfold noted
      split <;> simp
    · exact List.cons_subset_cons _ (List.append_subset.2
        ⟨fun _ ↦ reached_of_measured hfs, fieldsNeeded_subset_reached c.contents c.fieldNames fs hfs⟩)

theorem fieldsNeeded_subset_reached :
    ∀ (contents : List Content) (names : List String) (fs : List Field), fieldsFit full contents fs = true →
      fieldsNeeded plan {} names fs ⊆ fieldsReached names fs
  | _, [], _, _ => by rw [fieldsNeeded] <;> simp
  | _, _ :: _, [], _ => by rw [fieldsNeeded] <;> simp
  | [], _ :: _, _ :: _, h => by simp [fieldsFit] at h
  | content :: contents, name :: names, f :: fs, h => by
    rw [fieldsFit, Bool.and_eq_true] at h
    have hf := fieldNeeded_subset_reached content f h.1
    have hfs := fieldsNeeded_subset_reached contents names fs h.2
    rw [fieldsNeeded, fieldsReached, isSkippedField]
    refine List.append_subset.2 ⟨List.subset_append_of_subset_left _ ?_, List.subset_append_of_subset_right _ hfs⟩
    split
    · exact List.Subset.refl _
    · exact hf

/-- What a pass needs in a field, the check looks at. -/
theorem fieldNeeded_subset_reached (content : Content) :
    ∀ f : Field, f.fits full content = true → fieldNeeded plan {} f ⊆ f.reached
  | .child n, h => by
    rw [fieldNeeded, Field.reached]
    cases content with
    | one cat | optional cat => exact neededAt_subset_reached n (by simpa [Field.fits] using h)
    | _ => simp [Field.fits] at h
  | .many ns, h => by
    rw [fieldNeeded, Field.reached]
    cases content with
    | atom =>
      obtain rfl : ns = [] := by simpa [Field.fits] using h
      simp [nodesNeeded]
    | list cat nonempty =>
      obtain ⟨_, heq, -, hns⟩ := fits_list.1 h
      cases heq
      exact nodesNeeded_subset_reached ns hns
    | gaps cat =>
      obtain ⟨_, heq, hns⟩ := fits_gaps.1 h
      cases heq
      exact nodesNeeded_subset_reached ns hns
    | _ => simp [Field.fits] at h
  | .none, _ | .text _, _ | .number _, _ | .constant _, _ | .names _, _ => by rw [fieldNeeded] <;> simp

theorem nodesNeeded_subset_reached {gaps : Bool} {cat : Category} :
    ∀ ns : List Node, nodesAre full gaps cat ns = true → nodesNeeded plan {} ns ⊆ nodesReached ns
  | [], _ => by simp [nodesNeeded]
  | n :: ns, h => by
    obtain ⟨hn, hns⟩ := nodesAre_cons.1 h
    have hrest := nodesNeeded_subset_reached ns hns
    rw [nodesNeeded, nodesReached]
    refine List.append_subset.2 ⟨List.subset_append_of_subset_left _ ?_, List.subset_append_of_subset_right _ hrest⟩
    rcases hn with hn | ⟨-, rfl⟩
    · exact neededAt_subset_reached n hn
    · simp [neededAt]
end

theorem needed_subset_reached (h : tree.isA full cat = true) : needed plan {} tree ⊆ tree.reached := by
  cases tree with
  | gap => simp [needed]
  | mk i c p fs =>
    have hfs := (isA_mk.1 h).2
    rw [needed, not_contains_empty, if_neg Bool.false_ne_true, Node.reached]
    exact List.cons_subset_cons _ (List.append_subset.2
      ⟨fun _ ↦ reached_of_measured hfs, fieldsNeeded_subset_reached c.contents c.fieldNames fs hfs⟩)

theorem covered_of_unhindered (hexcluded : plan.excluded = []) (hgrammar : tree.isA full cat = true) :
    Covered plan {} tree := by
  intro n hn
  rw [checked_eq_reached hexcluded]
  exact .inl (needed_subset_reached hgrammar hn)

theorem located_of_placed {n : Node} (h : n.placed = true) (hgap : n ≠ .gap) : n.located = true := by
  cases n with
  | gap => exact absurd rfl hgap
  | mk i c p fs =>
    have hp := (placed_mk.1 h).1
    rw [Node.located]
    cases hrequired : c.role.required with
    | false => rfl
    | true => simpa using hp (Role.placeable_of_required hrequired)

/-- If nothing is marked, a pass over a stocked tree of the grammar in which no place is missing is not stopped. -/
theorem instrument_ok_of_placed (plan : Plan) (next : NodeId) (hgrammar : tree.isA full cat = true)
    (hstocked : tree.stocked = true) (hplaced : tree.placed = true) :
    ∃ i, instrument plan {} next tree = .ok i := by
  have hcovered : Covered plan {} tree := by
    intro n hn
    have hmem : n ∈ tree.nodes := reached_subset_nodes tree (needed_subset_reached hgrammar hn)
    refine .inr (located_of_placed (placed_of_mem_nodes hplaced n hmem) ?_)
    rintro rfl
    exact gap_not_mem_nodes tree hmem
  exact instrument_ok_of_stocked next hgrammar hstocked hcovered (checkPlaces_of_placed tree hplaced)

/-- If nothing is marked or excluded, the first node that lacks its place stops a pass over a stocked tree of the
grammar, and nothing else does. -/
theorem instrument_of_unplaced (hgrammar : tree.isA full cat = true) (hstocked : tree.stocked = true)
    (hexcluded : plan.excluded = []) :
    match tree.reached.findSome? Node.unplaced? with
    | some c => instrument plan {} next tree =
        .error { fault := .unlocated (.node c), tree, marks := {}, next }
    | none => ∃ i, instrument plan {} next tree = .ok i := by
  have hcheck : checkPlaces plan {} tree = verdict tree.reached := by
    rw [checkPlaces_eq_verdict, checked_eq_reached hexcluded]
  rw [verdict] at hcheck
  split
  next c hfirst =>
    rw [hfirst] at hcheck
    simp only [instrument, hcheck]
  next hnone =>
    rw [hnone] at hcheck
    exact instrument_ok_of_stocked next hgrammar hstocked (covered_of_unhindered hexcluded hgrammar) hcheck

/-- A class without a body and an annotated function. The annotations have no places; the value that the function
returns and its decorator have the place `p`. -/
def annotatedFunction (p : Place) : Node :=
  .mk 0 .module {} [.many
    [.mk 1 .classDef (placeAt 1 0) [.text "C", .many [], .many [], .many [], .many []],
      .mk 2 (.functionDef false) ⟨some 3, some 0, some 4, some 12⟩
        [.text "f",
          .child (.mk 3 (.plain .arguments) {}
            [.many [], .many [.mk 4 (.plain .arg) {}
              [.text "x", .child (.mk 5 (.plain .name) {} [.text "int", .child (.mk 6 (.plain .load) {} [])]), .none]],
              .none, .many [], .many [], .none, .many []]),
          .many [.mk 7 (.plain .returnStmt) ⟨some 4, some 2, some 4, some 12⟩
            [.child (.mk 8 (.plain .constant) p [.constant (.int 1), .none])]],
          .many [.mk 9 (.plain .name) p [.text "cached", .child (.mk 10 (.plain .load) {} [])]],
          .child (.mk 11 (.plain .name) {} [.text "int", .child (.mk 12 (.plain .load) {} [])]), .none]],
    .many []]

/-- The constant in the body comes before the decorator, whose field is behind the body. -/
theorem instrument_of_unplaced_annotatedFunction :
    instrument { filename := "f.py" } {} 13 (annotatedFunction {}) = .error
        { fault := .unlocated (.node (.plain .constant)), tree := annotatedFunction {}, marks := {}, next := 13 } ∧
      ∃ i, instrument { filename := "f.py" } {} 13 (annotatedFunction (placeAt 2 1)) = .ok i := by
  have hgrammar : ∀ p, (annotatedFunction p).isA false .root = true := fun _ ↦ rfl
  have hstocked : ∀ p, (annotatedFunction p).stocked = true := fun _ ↦ rfl
  exact ⟨instrument_of_unplaced (hgrammar {}) (hstocked {}) rfl,
    instrument_of_unplaced (hgrammar (placeAt 2 1)) (hstocked (placeAt 2 1)) rfl⟩

end Coverage.Pass
