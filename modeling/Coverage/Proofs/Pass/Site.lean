import Coverage.Pass
import Coverage.Program.Machine

/-!
# Sites

What a walk decides about the events of a tree: which of them it offers to the record as units or arms, and
which it leaves alone. The sites of a tree are found without walking: they depend on the tree, on the plan
and on the nodes that are marked beforehand, not on what the record accepts. To enrol sites is to offer them
to a record one after the other; each event is then labelled with the key it is counted under, if any.
-/

namespace Coverage.Syntax

def Field.ids (f : Field) : List NodeId := fieldsIds [f]

attribute [local simp] fieldsIds

@[simp]
theorem Field.ids_child (n : Node) : (Field.child n).ids = n.ids := by simp [Field.ids]

@[simp]
theorem Field.ids_many (ns : List Node) : (Field.many ns).ids = nodesIds ns := by simp [Field.ids]

theorem fieldsIds_cons (f : Field) (fs : List Field) : fieldsIds (f :: fs) = f.ids ++ fieldsIds fs := by
  cases f <;> simp [Field.ids]

/-- The identities all come before `first`. -/
def Before (first : NodeId) (ids : List NodeId) : Prop := ∀ i ∈ ids, i < first

@[simp]
theorem before_nil {first : NodeId} : Before first [] := by simp [Before]

@[simp]
theorem before_cons {first i : NodeId} {ids : List NodeId} :
    Before first (i :: ids) ↔ i < first ∧ Before first ids := by
  simp [Before]

@[simp]
theorem before_append {first : NodeId} {ids ids' : List NodeId} :
    Before first (ids ++ ids') ↔ Before first ids ∧ Before first ids' := by
  simp [Before, or_imp, forall_and]

end Coverage.Syntax

namespace Coverage.Pass

open Syntax Program

/-- A decision about events. -/
inductive Site where
  /-- A statement or function that is offered as a unit. -/
  | unit (event : Event) (kind : Kind) (span : Span) (name : Option String)
  /-- A decision point whose arms are offered. -/
  | fork (construct : Construct) (span : Span) (arms : List (Event × Span))
  /-- An event that is not counted. -/
  | quiet (event : Event)
  /-- A node in which no arm and no entry is counted. -/
  | silent (i : NodeId)

/-- A decision point that is offered has arms. -/
def Site.Armed : Site → Prop
  | .fork _ _ arms => arms ≠ []
  | _ => True

/-! ## The sites of a tree -/

def spanOf (n : Node) : Span := (locate n).toOption.getD ⟨0, 0, 0, 0⟩

/-- Spans that were found. -/
def spansOf (spans : Except Unlocated (List Span)) : List Span := spans.toOption.getD []

theorem spanOf_eq {n : Node} {span : Span} (h : locate n = .ok span) : spanOf n = span := by
  rw [spanOf, h]
  rfl

theorem spansOf_ok (spans : List Span) : spansOf (.ok spans) = spans := rfl

/-- The arms of one node, counted from a position on. -/
def numbered (i : NodeId) : Nat → List Span → List (Event × Span)
  | _, [] => []
  | a, span :: spans => (.took i a, span) :: numbered i (a + 1) spans

theorem map_fst_numbered (i : NodeId) (a : Nat) (spans : List Span) :
    (numbered i a spans).map (·.1) = (List.range' a spans.length).map (Event.took i) := by
  induction spans generalizing a with
  | nil => rfl
  | cons span spans ih => simp [numbered, ih, List.range'_succ]

theorem map_snd_numbered (i : NodeId) (a : Nat) (spans : List Span) : (numbered i a spans).map (·.2) = spans := by
  induction spans generalizing a with
  | nil => rfl
  | cons span spans ih => simp [numbered, ih]

theorem length_numbered (i : NodeId) (a : Nat) (spans : List Span) : (numbered i a spans).length = spans.length := by
  rw [← List.length_map (fun arm ↦ arm.2), map_snd_numbered]

/-- Nothing about these nodes is counted. -/
def hush (ids : List NodeId) : List Site := ids.flatMap fun i ↦ [.quiet (.started i), .silent i]

/-- The site of a statement as a unit. -/
def startSites : Node → List Site
  | .gap => []
  | .mk i c p fs => [.unit (.started i) .statement (spanOf (.mk i c p fs)) none]

/-- Whether a statement of a block is left alone; `docstring` tells whether it can be a docstring. -/
def passesOver (plan : Plan) (marks : Marks) (docstring : Bool) (s : Node) : Bool :=
  marks.holds s || plan.excludes s || (docstring && s.isDocstring) || s.isFutureImport

theorem free_of_not_passesOver {plan : Plan} {marks : Marks} {doc : Bool} {n : Node}
    (h : passesOver plan marks doc n = false) : marks.holds n = false := by
  simp only [passesOver, Bool.or_eq_false_iff] at h
  exact h.1.1.1

theorem kept_of_not_passesOver {plan : Plan} {marks : Marks} {doc : Bool} {n : Node}
    (h : passesOver plan marks doc n = false) : plan.excludes n = false := by
  simp only [passesOver, Bool.or_eq_false_iff] at h
  exact h.1.1.2

/-- Whether an `else` is the next link of an `if` chain. -/
def hasNextLink (plan : Plan) (marks : Marks) : List Node → Bool
  | [n] => continues plan marks n
  | _ => false

/-- The events of the arms of an `if` chain. -/
def chainEvents (plan : Plan) (marks : Marks) : Node → List Event
  | .mk i .ifStmt _ [.child _, .many _, .many orelse] =>
    match hasNextLink plan marks orelse, orelse with
    | true, [n] => .took i 0 :: chainEvents plan marks n
    | _, _ => [.took i 0, .took i 1]
  | _ => []

mutual
/-- The sites of a node, in the order in which a walk meets them. -/
def sites (plan : Plan) (marks : Marks) : Node → List Site
  | .gap => []
  | .mk i c p fs =>
    if marks.contains i then .silent i :: hush (fieldsIds fs)
    else
      match c, fs with
      | .module, [.many body, _] => blockSites plan marks true body
      | .classDef, [_, .many bases, .many keywords, .many body, .many decorators] =>
        allSites plan marks decorators ++ allSites plan marks bases ++ allSites plan marks keywords ++
          blockSites plan marks true body
      | .functionDef async, [.text name, .child args, .many body, .many decorators, returns, comment] =>
        .unit (.entered i) .function
            (spanOf (.mk i (.functionDef async) p
              [.text name, .child args, .many body, .many decorators, returns, comment])) (some name) ::
          (allSites plan marks decorators ++ sites plan marks args ++ blockSites plan marks true body)
      | .lambda, [.child args, .child body] =>
        .unit (.entered i) .function (spanOf (.mk i .lambda p [.child args, .child body])) (some "<lambda>") ::
          (sites plan marks args ++ sites plan marks body)
      | .ifStmt, fs =>
        .fork .ifChain (spanOf (.mk i .ifStmt p fs))
            ((chainEvents plan marks (.mk i .ifStmt p fs)).zip
              (spansOf (chainArms plan marks (.mk i .ifStmt p fs)))) ::
          chainSites plan marks i fs
      | .ifExp, [.child test, .child body, .child orelse] =>
        .fork .ternary (spanOf (.mk i .ifExp p [.child test, .child body, .child orelse]))
            (numbered i 0 [spanOf body, spanOf orelse]) ::
          (sites plan marks test ++ sites plan marks body ++ sites plan marks orelse)
      | .boolOp, [op, .many values] =>
        .fork .logical (spanOf (.mk i .boolOp p [op, .many values]))
            (numbered i 0 (spansOf (values.mapM locate))) ::
          allSites plan marks values
      | .matchStmt, [.child subject, .many cases] =>
        let hasDefault := (cases.getLast?.map (·.isDefaultCase)).getD false
        .fork .matchCases (spanOf (.mk i .matchStmt p [.child subject, .many cases]))
            (numbered i 0 (spansOf (matchArms subject cases hasDefault))) ::
          ((if hasDefault then [.quiet (.took i cases.length)] else []) ++
            sites plan marks subject ++ caseSites plan marks cases)
      | .whileLoop, [.child test, .many body, .many orelse] =>
        .fork .whileLoop (spanOf (.mk i .whileLoop p [.child test, .many body, .many orelse]))
            (numbered i 0 (spansOf (loopArms test body orelse))) ::
          (sites plan marks test ++ blockSites plan marks false body ++ blockSites plan marks false orelse)
      | .forLoop async, [.child target, .child iter, .many body, .many orelse, comment] =>
        .fork .forLoop
            (spanOf (.mk i (.forLoop async) p [.child target, .child iter, .many body, .many orelse, comment]))
            (numbered i 0 (spansOf (loopArms iter body orelse))) ::
          (sites plan marks target ++ sites plan marks iter ++ blockSites plan marks false body ++
            blockSites plan marks false orelse)
      | .tryStmt star, [.many body, .many handlers, .many orelse, .many finalbody] =>
        .fork .tryBody
            (spanOf (.mk i (.tryStmt star) p [.many body, .many handlers, .many orelse, .many finalbody]))
            (numbered i 0 (spansOf (tryArms body handlers finalbody))) ::
          (blockSites plan marks false body ++ handlerSites plan marks handlers ++
            blockSites plan marks false orelse ++ blockSites plan marks false finalbody)
      | c, fs => fieldsSites plan marks c.fieldNames fs

/-- The sites inside an `if` chain: of a link only the body can be counted, of the last also the `else`. -/
def chainSites (plan : Plan) (marks : Marks) (i : NodeId) : List Field → List Site
  | [.child test, .many body, .many orelse] =>
    sites plan marks test ++ blockSites plan marks false body ++
      match hasNextLink plan marks orelse, orelse with
      | true, [.mk j .ifStmt _ fs] => .quiet (.took i 1) :: .quiet (.started j) :: chainSites plan marks j fs
      | _, orelse => blockSites plan marks false orelse
  | _ => []

def blockSites (plan : Plan) (marks : Marks) (docstring : Bool) : List Node → List Site
  | [] => []
  | s :: rest =>
    (if passesOver plan marks docstring s then hush s.ids else startSites s ++ sites plan marks s) ++
      blockSites plan marks false rest

def caseSites (plan : Plan) (marks : Marks) : List Node → List Site
  | .mk _ _ _ [pattern, guard, .many body] :: rest =>
    hush pattern.ids ++ fieldSites plan marks guard ++ blockSites plan marks false body ++
      caseSites plan marks rest
  | _ => []

def handlerSites (plan : Plan) (marks : Marks) : List Node → List Site
  | .mk _ _ _ [type, _, .many body] :: rest =>
    fieldSites plan marks type ++ blockSites plan marks false body ++ handlerSites plan marks rest
  | _ => []

def fieldsSites (plan : Plan) (marks : Marks) : List String → List Field → List Site
  | name :: names, f :: fs =>
    (if isSkippedField name then [] else fieldSites plan marks f) ++ fieldsSites plan marks names fs
  | _, _ => []

def fieldSites (plan : Plan) (marks : Marks) : Field → List Site
  | .child n => sites plan marks n
  | .many ns => if startsBlock ns then blockSites plan marks false ns else allSites plan marks ns
  | _ => []

def allSites (plan : Plan) (marks : Marks) : List Node → List Site
  | [] => []
  | n :: ns => sites plan marks n ++ allSites plan marks ns
end

attribute [local simp] sites in
theorem sites_gap (plan : Plan) (marks : Marks) : sites plan marks .gap = [] := by simp

theorem sites_of_marked {plan : Plan} {marks : Marks} {i : NodeId} (held : marks.contains i = true)
    (c : NodeClass) (p : Place) (fs : List Field) :
    sites plan marks (.mk i c p fs) = .silent i :: hush (fieldsIds fs) := by
  unfold sites
  exact if_pos held

end Coverage.Pass
