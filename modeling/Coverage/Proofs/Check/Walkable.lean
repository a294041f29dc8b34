import Coverage.Proofs.Pass.Arms
import Coverage.Proofs.Pass.Progress
import Coverage.Proofs.Syntax.Stocked

/-!
# Places that a walk needs

The check before a pass looks at every node that it meets, and stops at marked nodes and at excluded statements.
The walk stops at them too, but it needs the places of some of them: of the first and last statement of a body, of
an operand, of the header of a loop. And it does not stop at marked handlers and cases. A tree is walkable if the
nodes whose places the walk needs have them.
-/

namespace Coverage.Syntax

/-- Handlers and cases belong to a statement; a walk goes into them with the statement. -/
def NodeClass.isClause : NodeClass → Bool
  | .handler | .matchCase => true
  | _ => false

/-- Categories of nodes that have a place in source text. -/
def Category.located : Category → Bool
  | .statement | .expression | .pattern | .handler => true
  | _ => false

theorem required_of_located {c : NodeClass} (h : c.category.located = true) : c.role.required = true := by
  revert h
  cases c with
  | plain c => cases c <;> decide
  | functionDef async | forLoop async | tryStmt star => exact fun _ ↦ rfl
  | _ => decide

/-- A node of a class that must have a place has one. -/
def Node.located : Node → Bool
  | .gap => false
  | .mk _ c p _ => !c.role.required || p.span?.isSome

end Coverage.Syntax

namespace Coverage.Pass

open Syntax

variable {fs : List Field} {n : Node} {ns : List Node}

/-- The nodes that the span of a block is measured by. -/
def ends (ns : List Node) : List Node := ns.head?.toList ++ ns.getLast?.toList

/-- The nodes that the way out of a construct is measured by: those of its `else` clause, or its header. -/
def exits (header : Node) : List Node → List Node
  | [] => [header]
  | orelse => ends orelse

/-- The nodes that the arms of a construct are measured by. -/
def measured : NodeClass → List Field → List Node
  | .ifStmt, [.child test, .many body, .many orelse] => ends body ++ exits test orelse
  | .ifExp, [_, .child body, .child orelse] => [body, orelse]
  | .boolOp, [_, .many values] => values
  | .matchStmt, [.child subject, _] => [subject]
  | .matchCase, [.child pattern, _, .many body] => pattern :: ends body
  | .whileLoop, [.child test, .many body, .many orelse] => ends body ++ exits test orelse
  | .forLoop _, [_, .child iter, .many body, .many orelse, _] => ends body ++ exits iter orelse
  | .tryStmt _, [.many body, .many handlers, _, .many finalbody] =>
    ends body ++ if handlers.isEmpty then ends finalbody else ends handlers
  | _, _ => []

section Needed

variable (plan : Plan) (marks : Marks)

mutual
def checked : Node → List Node
  | .gap => []
  | .mk i c p fs =>
    if marks.contains i || (c.isStatement && plan.excludes (.mk i c p fs)) then []
    else .mk i c p fs :: fieldsChecked c.fieldNames fs

def fieldsChecked : List String → List Field → List Node
  | name :: names, f :: fs => (if isSkippedField name then [] else fieldChecked f) ++ fieldsChecked names fs
  | _, _ => []

def fieldChecked : Field → List Node
  | .child n => checked n
  | .many ns => nodesChecked ns
  | _ => []

def nodesChecked : List Node → List Node
  | [] => []
  | n :: ns => checked n ++ nodesChecked ns
end

/-- An excluded statement is left out, and its line goes into a note. Only a definition with an excluded
decorator can lack a line. -/
def noted (n : Node) : List Node := if n.decorators.isEmpty then [] else [n]

mutual
/-- The nodes whose places a walk needs that meets a node on its way. -/
def neededAt : Node → List Node
  | .gap => []
  | .mk i c p fs =>
    if marks.contains i && !c.isClause then []
    else if c.isStatement && plan.excludes (.mk i c p fs) then noted (.mk i c p fs)
    else .mk i c p fs :: (measured c fs ++ fieldsNeeded c.fieldNames fs)

def fieldsNeeded : List String → List Field → List Node
  | name :: names, f :: fs => (if isSkippedField name then [] else fieldNeeded f) ++ fieldsNeeded names fs
  | _, _ => []

def fieldNeeded : Field → List Node
  | .child n => neededAt n
  | .many ns => nodesNeeded ns
  | _ => []

def nodesNeeded : List Node → List Node
  | [] => []
  | n :: ns => neededAt n ++ nodesNeeded ns
end

/-- The nodes whose places a walk needs that starts at a node. It does not ask whether the node is excluded. -/
def needed : Node → List Node
  | .gap => []
  | .mk i c p fs =>
    if marks.contains i then [] else .mk i c p fs :: (measured c fs ++ fieldsNeeded plan marks c.fieldNames fs)

/-- A walk can start at a node if the places that it then needs are there. -/
def Enterable (n : Node) : Prop := ∀ m ∈ needed plan marks n, m.located = true

def Walkable (n : Node) : Prop := ∀ m ∈ neededAt plan marks n, m.located = true

def FieldsWalkable (names : List String) (fs : List Field) : Prop :=
  ∀ m ∈ fieldsNeeded plan marks names fs, m.located = true

def FieldWalkable (f : Field) : Prop := ∀ m ∈ fieldNeeded plan marks f, m.located = true

def NodesWalkable (ns : List Node) : Prop := ∀ m ∈ nodesNeeded plan marks ns, m.located = true

/-- What a walk needs below a node of a class. -/
structure Inside (c : NodeClass) (fs : List Field) : Prop where
  measured : ∀ m ∈ measured c fs, m.located = true
  fields : FieldsWalkable plan marks c.fieldNames fs

end Needed

variable {plan : Plan} {marks : Marks} {full : Bool} {cat : Category}

/-! ## The check -/

mutual
/-- A tree passes the check if the nodes that it looks at have their places. -/
theorem checkPlaces_eq_ok :
    ∀ n : Node, checkPlaces plan marks n = .ok () ↔ ∀ m ∈ checked plan marks n, m.located = true
  | .gap => by simp [checkPlaces, checked]
  | .mk i c p fs => by
    rw [checkPlaces, checked]
    split
    next => simp
    next =>
      have hfs := checkFields_eq_ok c.fieldNames fs
      have hlocated : (Node.mk i c p fs).located = !(c.role.required && p.span?.isNone) := by
        cases hspan : p.span? <;> simp [Node.located, hspan]
      simp only [List.mem_cons, forall_eq_or_imp, hlocated, ← hfs]
      split
      next hlacks => simp [hlacks]
      next hhas => simp [hhas]

theorem checkFields_eq_ok : ∀ (names : List String) (fs : List Field), checkFields plan marks names fs = .ok () ↔
    ∀ m ∈ fieldsChecked plan marks names fs, m.located = true
  | [], _ => by rw [checkFields, fieldsChecked] <;> simp
  | _ :: _, [] => by rw [checkFields, fieldsChecked] <;> simp
  | name :: names, f :: fs => by
    have hf := checkField_eq_ok f
    have hfs := checkFields_eq_ok names fs
    rw [checkFields, fieldsChecked]
    simp only [List.mem_append, or_imp, forall_and, ← hfs]
    cases isSkippedField name with
    | true => simp
    | false => simp [except_bind_eq_ok, hf]

theorem checkField_eq_ok :
    ∀ f : Field, checkField plan marks f = .ok () ↔ ∀ m ∈ fieldChecked plan marks f, m.located = true
  | .child n => by rw [checkField, fieldChecked, checkPlaces_eq_ok n]
  | .many ns => by rw [checkField, fieldChecked, checkNodes_eq_ok ns]
  | .none | .text _ | .number _ | .constant _ | .names _ => by simp [checkField, fieldChecked]

theorem checkNodes_eq_ok :
    ∀ ns : List Node, checkNodes plan marks ns = .ok () ↔ ∀ m ∈ nodesChecked plan marks ns, m.located = true
  | [] => by simp [checkNodes, nodesChecked]
  | n :: ns => by
    have hn := checkPlaces_eq_ok n
    have hns := checkNodes_eq_ok ns
    rw [checkNodes, nodesChecked]
    simp only [List.mem_append, or_imp, forall_and, ← hn, ← hns, except_bind_eq_ok]
    exact ⟨fun ⟨_, h⟩ ↦ h, fun h ↦ ⟨(), h⟩⟩
end

/-! ## Walkable trees -/

theorem fieldsWalkable_cons {name : String} {names : List String} {f : Field} :
    FieldsWalkable plan marks (name :: names) (f :: fs) ↔
      (isSkippedField name = true ∨ FieldWalkable plan marks f) ∧ FieldsWalkable plan marks names fs := by
  rw [FieldsWalkable, fieldsNeeded]
  cases h : isSkippedField name <;> simp [FieldsWalkable, FieldWalkable, or_imp, forall_and]

theorem fieldWalkable_child : FieldWalkable plan marks (.child n) ↔ Walkable plan marks n := by
  rw [FieldWalkable, fieldNeeded, Walkable]

theorem fieldWalkable_many : FieldWalkable plan marks (.many ns) ↔ NodesWalkable plan marks ns := by
  rw [FieldWalkable, fieldNeeded, NodesWalkable]

theorem nodesWalkable_cons :
    NodesWalkable plan marks (n :: ns) ↔ Walkable plan marks n ∧ NodesWalkable plan marks ns := by
  rw [NodesWalkable, nodesNeeded]
  simp [NodesWalkable, Walkable, or_imp, forall_and]

theorem enterable_mk {i : NodeId} {c : NodeClass} {p : Place} : Enterable plan marks (.mk i c p fs) ↔
      marks.contains i = true ∨ (Node.mk i c p fs).located = true ∧ Inside plan marks c fs := by
  rw [Enterable, needed]
  cases marks.contains i with
  | true => simp
  | false =>
    simp only [Bool.false_eq_true, if_false, false_or, List.mem_cons, List.mem_append, or_imp, forall_and,
      forall_eq]
    exact ⟨fun h ↦ ⟨h.1, h.2.1, h.2.2⟩, fun h ↦ ⟨h.1, h.2.measured, h.2.fields⟩⟩

/-- A walk goes into a node on its way unless the node is an excluded statement. -/
theorem enterable_of_walkable (h : Walkable plan marks n)
    (hkept : (n.isStatement && plan.excludes n) = false) : Enterable plan marks n := by
  cases n with
  | gap => simp [Enterable, needed]
  | mk i c p fs =>
    have hkept : (c.isStatement && plan.excludes (.mk i c p fs)) = false := hkept
    rw [Walkable, neededAt, hkept] at h
    rw [Enterable, needed]
    cases held : marks.contains i with
    | true => simp
    | false => simpa [held] using h

theorem enterable_of_inner (hn : n.isA full cat = true) (hcat : cat ≠ .statement)
    (h : Walkable plan marks n) : Enterable plan marks n :=
  enterable_of_walkable h (by rw [not_isStatement_of_isA hn hcat, Bool.false_and])

theorem located_of_enterable (h : Enterable plan marks n) (hn : n ≠ .gap)
    (hfree : marks.holds n = false) : n.located = true := by
  cases n with
  | gap => exact absurd rfl hn
  | mk i c p fs =>
    have hfree : marks.contains i ≠ true := by simpa [Marks.holds] using hfree
    exact ((enterable_mk.1 h).resolve_left hfree).1

/-- A walk passes an excluded statement by, and notes it. -/
theorem noted_of_walkable (h : Walkable plan marks n) (hfree : marks.holds n = false)
    (hexcluded : (n.isStatement && plan.excludes n) = true) : ∀ m ∈ noted n, m.located = true := by
  cases n with
  | gap => cases hexcluded
  | mk i c p fs =>
    have hexcluded : (c.isStatement && plan.excludes (.mk i c p fs)) = true := hexcluded
    have hfree : marks.contains i = false := hfree
    rw [Walkable, neededAt, hfree, hexcluded] at h
    exact h

/-- A walk goes into handlers and cases even if they are marked. -/
theorem inside_of_clause {i : NodeId} {c : NodeClass} {p : Place}
    (hclause : c.isClause = true) (h : Walkable plan marks (.mk i c p fs)) : Inside plan marks c fs := by
  have hstatement : c.isStatement = false := by
    cases c <;> first | rfl | cases hclause
  rw [Walkable, neededAt, hclause, hstatement] at h
  simp only [Bool.not_true, Bool.and_false, Bool.false_and, Bool.false_eq_true, if_false, List.mem_cons,
    List.mem_append, or_imp, forall_and] at h
  exact ⟨h.2.1, h.2.2⟩

/-! ## Spans -/

/-- A node that has to be located can be. -/
theorem locate_of_located (hn : n.isA full cat = true) (hcat : cat.located = true)
    (h : n.located = true) : ∃ span, locate n = .ok span := by
  cases n with
  | gap => cases h
  | mk i c p fs =>
    obtain ⟨rfl, -⟩ := isA_mk.1 hn
    have hspan : p.span?.isSome = true := by simpa [Node.located, required_of_located hcat] using h
    obtain ⟨span, hspan⟩ := Option.isSome_iff_exists.1 hspan
    exact ⟨span, by simp [locate, hspan]⟩

theorem isA_of_mem (h : nodesAre full false cat ns = true) (hn : n ∈ ns) : n.isA full cat = true := by
  induction ns with
  | nil => cases hn
  | cons m ns ih =>
    obtain ⟨hm, hns⟩ := nodesAre_cons.1 h
    rcases List.mem_cons.1 hn with rfl | hn
    · simpa using hm
    · exact ih hns hn

theorem locateAll_of_ends (hne : ns ≠ []) (hns : nodesAre full false cat ns = true)
    (hcat : cat.located = true) (h : ∀ m ∈ ends ns, m.located = true) : ∃ span, locateAll ns = .ok span := by
  simp only [ends, List.head?_eq_some_head hne, List.getLast?_eq_some_getLast hne, Option.toList_some,
    List.mem_append, List.mem_singleton, or_imp, forall_and, forall_eq] at h
  obtain ⟨first, hfirst⟩ := locate_of_located (isA_of_mem hns (List.head_mem hne)) hcat h.1
  obtain ⟨last, hlast⟩ := locate_of_located (isA_of_mem hns (List.getLast_mem hne)) hcat h.2
  refine ⟨first.join last, ?_⟩
  simp [locateAll, List.head?_eq_some_head hne, List.getLast?_eq_some_getLast hne, hfirst, hlast, bind, Except.bind,
    pure, Except.pure]

/-! ## Arms -/

/-- If each node of a list has an arm, the list has arms. -/
theorem mapM_of_forall {f : Node → Except Unlocated Span} (hne : ns ≠ [])
    (h : ∀ n ∈ ns, ∃ span, f n = .ok span) : ∃ spans, ns.mapM f = .ok spans ∧ spans ≠ [] := by
  suffices hall : ∃ spans, ns.mapM f = .ok spans by
    obtain ⟨spans, hspans⟩ := hall
    refine ⟨spans, hspans, ?_⟩
    rintro rfl
    exact hne (List.length_eq_zero_iff.1 (length_of_mapM_ok hspans).symm)
  clear hne
  induction ns with
  | nil => exact ⟨[], rfl⟩
  | cons n ns ih =>
    rw [List.forall_mem_cons] at h
    obtain ⟨span, hspan⟩ := h.1
    obtain ⟨spans, hspans⟩ := ih h.2
    exact ⟨span :: spans, by simp [List.mapM_cons, hspan, hspans, bind, Except.bind, pure, Except.pure]⟩

theorem loopArms_of_measured {header : Node} {body orelse : List Node} (hheader : header.isA full .expression = true)
    (hsome : body ≠ []) (hbody : nodesAre full false .statement body = true)
    (horelse : nodesAre full false .statement orelse = true)
    (h : ∀ m ∈ ends body ++ exits header orelse, m.located = true) :
    ∃ spans, loopArms header body orelse = .ok spans ∧ spans ≠ [] := by
  rw [List.forall_mem_append] at h
  obtain ⟨span, hspan⟩ := locateAll_of_ends hsome hbody rfl h.1
  cases orelse with
  | nil =>
    obtain ⟨exit, hexit⟩ := locate_of_located hheader rfl (h.2 header (List.mem_singleton.2 rfl))
    exact ⟨[span, exit], by simp [loopArms, hspan, hexit, bind, Except.bind, pure, Except.pure], by simp⟩
  | cons n ns =>
    obtain ⟨exit, hexit⟩ := locateAll_of_ends (List.cons_ne_nil n ns) horelse rfl h.2
    exact ⟨[span, exit], by simp [loopArms, hspan, hexit, bind, Except.bind, pure, Except.pure], by simp⟩

/-- The arms of a `try` are found from the nodes that they are measured by. -/
theorem tryArms_of_measured {body handlers finalbody : List Node} (hsome : body ≠ [])
    (hbody : nodesAre full false .statement body = true) (hhandlers : nodesAre full false .handler handlers = true)
    (hfinalbody : nodesAre full false .statement finalbody = true)
    (h : ∀ m ∈ ends body ++ if handlers.isEmpty then ends finalbody else ends handlers, m.located = true) :
    ∃ spans, tryArms body handlers finalbody = .ok spans ∧ spans ≠ [] := by
  rw [List.forall_mem_append] at h
  obtain ⟨span, hspan⟩ := locateAll_of_ends hsome hbody rfl h.1
  cases handlers with
  | nil =>
    cases finalbody with
    | nil => exact ⟨[span, span], by simp [tryArms, hspan, bind, Except.bind, pure, Except.pure], by simp⟩
    | cons n ns =>
      obtain ⟨error, herror⟩ := locateAll_of_ends (List.cons_ne_nil n ns) hfinalbody rfl h.2
      exact ⟨[span, error], by simp [tryArms, hspan, herror, bind, Except.bind, pure, Except.pure], by simp⟩
  | cons n ns =>
    obtain ⟨error, herror⟩ := locateAll_of_ends (List.cons_ne_nil n ns) hhandlers rfl h.2
    exact ⟨[span, error], by simp [tryArms, hspan, herror, bind, Except.bind, pure, Except.pure], by simp⟩

theorem caseArm_of_walkable (hn : n.isA full .case = true) (hstocked : n.stocked = true) (h : Walkable plan marks n) :
    ∃ span, caseArm n = .ok span := by
  cases n with
  | gap => simp [Node.isA] at hn
  | mk i c p fs =>
    obtain ⟨hc, hfs⟩ := isA_mk.1 hn
    obtain rfl := class_of_category.1 hc
    have hinside := inside_of_clause rfl h
    cases shape_of_fits hfs with
    | matchCase hpattern hguard hsome hbody =>
      obtain ⟨hlocated, hends⟩ := List.forall_mem_cons.1 hinside.measured
      obtain ⟨first, hfirst⟩ := locate_of_located hpattern rfl hlocated
      obtain ⟨last, hlast⟩ := locateAll_of_ends ((stocked_mk.1 hstocked).1 _ rfl) hbody rfl hends
      exact ⟨first.join last, by simp [caseArm, hfirst, hlast, bind, Except.bind, pure, Except.pure]⟩

theorem walkable_of_mem (h : NodesWalkable plan marks ns) (hn : n ∈ ns) : Walkable plan marks n := by
  induction ns with
  | nil => cases hn
  | cons m ns ih =>
    rw [nodesWalkable_cons] at h
    rcases List.mem_cons.1 hn with rfl | hn
    · exact h.1
    · exact ih h.2 hn

/-- The arms of a `match` are found if its subject and cases can be located. -/
theorem matchArms_of_walkable {subject : Node} {cases : List Node} (hasDefault : Bool)
    (hsubject : ∃ span, locate subject = .ok span) (hsome : cases ≠ [])
    (hcases : nodesAre full false .case cases = true) (hstocked : nodesStocked cases = true)
    (h : NodesWalkable plan marks cases) :
    ∃ spans, matchArms subject cases hasDefault = .ok spans ∧ spans ≠ [] := by
  obtain ⟨arms, harms, hne⟩ := mapM_of_forall hsome fun n hn ↦
    caseArm_of_walkable (isA_of_mem hcases hn) (stocked_of_mem hstocked hn) (walkable_of_mem h hn)
  obtain ⟨last, hlast⟩ := hsubject
  cases hasDefault with
  | true => exact ⟨arms, by simp [matchArms, harms, bind, Except.bind, pure, Except.pure], hne⟩
  | false =>
    exact ⟨arms ++ [last], by simp [matchArms, harms, hlast, bind, Except.bind, pure, Except.pure], by simp⟩

/-- A link that continues a chain is not marked beforehand and not excluded, so the walk goes into it. -/
theorem inside_of_continues {marks' : Marks} {j : NodeId} {q : Place}
    (hmarks : marks.Among marks') (hnext : continues plan marks' (.mk j .ifStmt q fs) = true)
    (h : Walkable plan marks (.mk j .ifStmt q fs)) : Inside plan marks .ifStmt fs := by
  have hfree : marks.contains j ≠ true := by
    intro held
    have held' := hmarks j held
    have hfree := free_of_not_passesOver (passesOver_of_continues hnext)
    rw [Marks.holds, held'] at hfree
    cases hfree
  have hkept : plan.excludes (.mk j .ifStmt q fs) = false := by
    simp only [continues, Bool.and_eq_true, Bool.not_eq_true'] at hnext
    exact hnext.2
  have henter := enterable_of_walkable h (by rw [hkept, Bool.and_false])
  exact ((enterable_mk.1 henter).resolve_left hfree).2

/-- The arms of a chain have spans, whatever else is marked. -/
theorem chainArms_of_inside {marks' : Marks} (hmarks : marks.Among marks') (i : NodeId) (p : Place) (fs : List Field)
    (hfs : fieldsFit full (NodeClass.contents .ifStmt) fs = true)
    (hstocked : (Node.mk i .ifStmt p fs).stocked = true) (h : Inside plan marks .ifStmt fs) :
    ∃ arms, chainArms plan marks' (.mk i .ifStmt p fs) = .ok arms ∧ arms ≠ [] := by
  cases shape_of_fits hfs with
  | @ifStmt test body orelse htest hsome hbody horelse =>
    obtain ⟨hends, hexits⟩ := List.forall_mem_append.1 h.measured
    obtain ⟨hne, hstock⟩ := stocked_mk.1 hstocked
    obtain ⟨span, hspan⟩ := locateAll_of_ends (hne _ rfl) hbody rfl hends
    cases orelse with
    | nil =>
      obtain ⟨exit, hexit⟩ := locate_of_located htest rfl (hexits test (List.mem_singleton.2 rfl))
      exact ⟨[span, exit], by simp [chainArms, hspan, hexit, bind, Except.bind, pure, Except.pure], by simp⟩
    | cons n ns =>
      obtain ⟨last, hlast⟩ := locateAll_of_ends (List.cons_ne_nil n ns) horelse rfl hexits
      cases ns with
      | cons m ns =>
        refine ⟨[span, last], ?_, by simp⟩
        rw [chainArms] <;> simp [hspan, hlast, bind, Except.bind, pure, Except.pure]
      | nil =>
        by_cases hnext : continues plan marks' n = true
        · obtain ⟨j, q, test', body', orelse', rfl⟩ := continues_link hnext
          have hn := (isA_mk.1 (isA_of_mem horelse (List.mem_singleton.2 rfl))).2
          simp only [fieldsStocked_cons, stocked_many, nodesStocked_cons] at hstock
          have hfields := h.fields
          simp only [NodeClass.fieldNames, NodeClass.table, fieldsWalkable_cons, fieldWalkable_many,
            nodesWalkable_cons] at hfields
          have hwalkable := (hfields.2.2.1.resolve_left (by decide)).1
          obtain ⟨rest, hrest, -⟩ := chainArms_of_inside hmarks j q _ hn hstock.2.2.1.1
            (inside_of_continues hmarks hnext hwalkable)
          refine ⟨span :: rest, ?_, by simp⟩
          rw [chainArms, if_pos hnext]
          simp [hspan, hrest, bind, Except.bind, pure, Except.pure]
        · refine ⟨[span, last], ?_, by simp⟩
          rw [chainArms, if_neg hnext]
          simp [hspan, hlast, bind, Except.bind, pure, Except.pure]
termination_by sizeOf fs

end Coverage.Pass
