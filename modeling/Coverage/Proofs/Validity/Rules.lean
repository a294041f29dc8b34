import Coverage.Proofs.Pass.Woven
import Coverage.Proofs.Syntax.Nodes

/-!
# Rules for source text

Rules that a tree has to keep so that it can be compiled: lists that the grammar wants filled are not empty, imports
from `__future__` stand at the start of the module, only the last case of a `match` catches everything, and a `try` has
handlers or a `finally`. Each rule looks at the classes and fields of nodes; so do the docstrings of a tree, and neither
depends on places.
-/

namespace Coverage.Syntax

/-! ## Rules -/

/-- The lists of a class that are never empty in source text. -/
def NodeClass.mandatory : NodeClass → List String
  | classDef | functionDef _ | ifStmt | whileLoop | forLoop _ | tryStmt _ | matchCase | handler => ["body"]
  | boolOp => ["values"]
  | matchStmt => ["cases"]
  | plain .withStmt | plain .asyncWith => ["items", "body"]
  | plain .assign | plain .delete => ["targets"]
  | plain .importStmt | plain .importFrom | plain .global | plain .nonlocal => ["names"]
  | plain .compare => ["ops", "comparators"]
  | plain .dictComp | plain .generatorExp | plain .listComp | plain .setComp => ["generators"]
  | plain .set => ["elts"]
  | plain .matchOr => ["patterns"]
  | _ => []

def Field.isEmpty : Field → Bool
  | .many [] | .names [] => true
  | _ => false

namespace Node

def listFilled (field : String) : Node → Bool
  | .gap => true
  | .mk _ c _ fs => (c.fieldNames.zip fs).all fun p ↦ !(p.1 == field && c.mandatory.contains p.1 && p.2.isEmpty)

/-- Whether an `and` or `or` has two operands at least. -/
def operandsPaired : Node → Bool
  | .mk _ .boolOp _ [_, .many values] => decide (2 ≤ values.length)
  | _ => true

/-- Whether only the last case of a `match` catches everything. -/
def defaultLast : Node → Bool
  | .mk _ .matchStmt _ [.child _, .many cases] => cases.dropLast.all fun c ↦ !c.isDefaultCase
  | _ => true

/-- Whether a `try` has handlers or a `finally`. -/
def hasClause : Node → Bool
  | .mk _ (.tryStmt _) _ [_, handlers, _, finalbody] => !(handlers.isEmpty && finalbody.isEmpty)
  | _ => true

/-- The identity of an import from `__future__`. -/
def futureImport? : Node → Option NodeId
  | .gap => none
  | .mk i c p fs => if (Node.mk i c p fs).isFutureImport then some i else none

/-- The body of a module, class or function. -/
def documentedBody? : Node → Option (List Node)
  | .mk _ .module _ [.many body, _] => some body
  | .mk _ .classDef _ [_, .many _, .many _, .many body, .many _] => some body
  | .mk _ (.functionDef _) _ [.text _, .child _, .many body, .many _, _, _] => some body
  | _ => none

def moduleBody : Node → List Node
  | .mk i .module p fs => (Node.mk i .module p fs).documentedBody?.getD []
  | _ => []

end Node

def Node.stringConstant? : Node → Option String
  | .mk _ (.plain .constant) _ (.constant (.str s) :: _) => some s
  | _ => none

def Field.stringConstant? : Field → Option String
  | .child n => n.stringConstant?
  | _ => Option.none

/-- The text of a statement that is a string constant. -/
def Node.docstring? : Node → Option String
  | .mk _ c _ (f :: _) => if c = .plain .exprStmt then f.stringConstant? else none
  | _ => none

/-- The docstring and the imports from `__future__` at the start of a block; `docstring` tells whether the block can
start with a docstring. -/
def opening (docstring : Bool) : List Node → List Node
  | [] => []
  | s :: rest => if s.isFutureImport || (docstring && s.isDocstring) then s :: opening false rest else []

/-- The imports from `__future__` in a list. -/
def futureImports (ns : List Node) : List NodeId := ns.filterMap Node.futureImport?

/-- The text that a body starts with, if it starts with a string constant. -/
def leadingText? (body : List Node) : Option String := body.head?.bind Node.docstring?

/-- A module, class or function with its docstring, if it has one. -/
def Node.documentation? : Node → Option (NodeId × Option String)
  | .gap => none
  | .mk i c p fs => (Node.mk i c p fs).documentedBody?.map fun body ↦ (i, leadingText? body)

/-- The modules, classes and functions of a tree with their docstrings, in preorder. -/
def Node.documentation (n : Node) : List (NodeId × Option String) := n.nodes.filterMap Node.documentation?

/-- A rule that source text obeys. -/
inductive Rule where
  /-- Lists that must not be empty are not, as far as they stand in fields of one name. -/
  | lists (field : String)
  /-- An `and` or `or` has two operands at least. -/
  | operands
  /-- In the body of the module, only the docstring and other imports from `__future__` stand before one. -/
  | imports
  /-- No import from `__future__` stands anywhere else. -/
  | topImports
  /-- Only the last case of a `match` catches everything. -/
  | defaults
  /-- A `try` has handlers or a `finally`. -/
  | clauses

/-- The tree obeys a rule. -/
def Node.Obeys (tree : Node) : Rule → Prop
  | .lists field => ∀ n ∈ tree.nodes, n.listFilled field = true
  | .operands => ∀ n ∈ tree.nodes, n.operandsPaired = true
  | .imports => futureImports tree.moduleBody = futureImports (opening true tree.moduleBody)
  | .topImports => futureImports tree.nodes = futureImports (opening true tree.moduleBody)
  | .defaults => ∀ n ∈ tree.nodes, n.defaultLast = true
  | .clauses => ∀ n ∈ tree.nodes, n.hasClause = true

end Coverage.Syntax

namespace Coverage.Pass

open Syntax Program

/-! ## Fields that grow -/

/-- A field keeps its kind, and a list that is not empty does not become so. -/
inductive Swollen : Field → Field → Prop
  | same {f} : Swollen f f
  | child {n n'} : Swollen (.child n) (.child n')
  | many {ns ns'} (h : ns ≠ [] → ns' ≠ []) : Swollen (.many ns) (.many ns')

theorem swollen_same (fs : List Field) : List.Forall₂ Swollen fs fs := List.forall₂_same.2 fun _ _ ↦ .same

theorem Swollen.isEmpty {f f' : Field} (h : Swollen f f') (hf : f.isEmpty = false) : f'.isEmpty = false := by
  cases h with
  | same => exact hf
  | child => rfl
  | @many ns ns' h =>
    have hne : ns ≠ [] := by
      rintro rfl
      cases hf
    obtain ⟨n, rest, rfl⟩ := List.exists_cons_of_ne_nil (h hne)
    rfl

/-- Lists that only grow do not become empty. -/
theorem listFilled_of_swollen {field : String} {i : NodeId} {c : NodeClass} {p p' : Place} {fs fs' : List Field}
    (h : List.Forall₂ Swollen fs fs') (hfilled : (Node.mk i c p fs).listFilled field = true) :
    (Node.mk i c p' fs').listFilled field = true := by
  rw [Node.listFilled] at hfilled ⊢
  generalize c.fieldNames = names at hfilled ⊢
  induction h generalizing names with
  | nil => exact hfilled
  | cons hf _ ih =>
    cases names with
    | nil => rfl
    | cons name names =>
      rw [List.zip_cons_cons, List.all_cons, Bool.and_eq_true] at hfilled ⊢
      refine ⟨?_, ih names hfilled.2⟩
      have hhead := hfilled.1
      simp only [Bool.not_eq_true', Bool.and_eq_false_iff] at hhead ⊢
      exact hhead.imp_right hf.isEmpty

theorem hasClause_of_swollen {i : NodeId} {c : NodeClass} {p p' : Place} {fs fs' : List Field}
    (h : List.Forall₂ Swollen fs fs') (hclause : (Node.mk i c p fs).hasClause = true) :
    (Node.mk i c p' fs').hasClause = true := by
  unfold Node.hasClause
  split
  next heq =>
    cases heq
    obtain _ | ⟨_, _ | ⟨hhandlers, _ | ⟨_, _ | ⟨hfinal, ⟨⟩⟩⟩⟩⟩ := h
    simp only [Node.hasClause, Bool.not_eq_true', Bool.and_eq_false_iff] at hclause ⊢
    exact hclause.imp hhandlers.isEmpty hfinal.isEmpty
  next => rfl

/-! ## Nodes with a rule of their own -/

/-- What has no rule of its own gets none. -/
theorem hasRule_of_swollen {c : NodeClass} {fs fs' : List Field} (h : List.Forall₂ Swollen fs fs')
    (noRule : hasRule c fs = false) : hasRule c fs' = false := by
  rw [← Bool.not_eq_true] at noRule ⊢
  intro hrule
  apply noRule
  unfold hasRule at hrule
  split at hrule
  · obtain _ | ⟨⟨⟩, _ | ⟨_, ⟨⟩⟩⟩ := h <;> rfl
  · obtain _ | ⟨_, _ | ⟨⟨⟩, _ | ⟨⟨⟩, _ | ⟨⟨⟩, _ | ⟨⟨⟩, ⟨⟩⟩⟩⟩⟩⟩ := h <;> rfl
  · obtain _ | ⟨⟨⟩, _ | ⟨⟨⟩, _ | ⟨⟨⟩, _ | ⟨⟨⟩, _ | ⟨_, _ | ⟨_, ⟨⟩⟩⟩⟩⟩⟩⟩ := h <;> rfl
  · obtain _ | ⟨⟨⟩, _ | ⟨⟨⟩, ⟨⟩⟩⟩ := h <;> rfl
  · rfl
  · obtain _ | ⟨⟨⟩, _ | ⟨⟨⟩, _ | ⟨⟨⟩, ⟨⟩⟩⟩⟩ := h <;> rfl
  · obtain _ | ⟨_, _ | ⟨⟨⟩, ⟨⟩⟩⟩ := h <;> rfl
  · obtain _ | ⟨⟨⟩, _ | ⟨⟨⟩, ⟨⟩⟩⟩ := h <;> rfl
  · obtain _ | ⟨⟨⟩, _ | ⟨⟨⟩, _ | ⟨⟨⟩, ⟨⟩⟩⟩⟩ := h <;> rfl
  · obtain _ | ⟨⟨⟩, _ | ⟨⟨⟩, _ | ⟨⟨⟩, _ | ⟨⟨⟩, _ | ⟨_, ⟨⟩⟩⟩⟩⟩⟩ := h <;> rfl
  · obtain _ | ⟨⟨⟩, _ | ⟨⟨⟩, _ | ⟨⟨⟩, _ | ⟨⟨⟩, ⟨⟩⟩⟩⟩⟩ := h <;> rfl
  · cases hrule

section NoRule

variable {i : NodeId} {c : NodeClass} {p : Place} {fs : List Field} (h : hasRule c fs = false ∨ fs.length = 3)

include h

theorem operandsPaired_of_not_hasRule : (Node.mk i c p fs).operandsPaired = true := by
  unfold Node.operandsPaired
  split
  next heq =>
    cases heq
    simp [hasRule] at h
  next => rfl

theorem defaultLast_of_not_hasRule : (Node.mk i c p fs).defaultLast = true := by
  unfold Node.defaultLast
  split
  next heq =>
    cases heq
    simp [hasRule] at h
  next => rfl

theorem documentedBody?_of_not_hasRule : (Node.mk i c p fs).documentedBody? = none := by
  unfold Node.documentedBody?
  split
  next heq =>
    cases heq
    simp [hasRule] at h
  next heq =>
    cases heq
    simp [hasRule] at h
  next heq =>
    cases heq
    simp [hasRule] at h
  next => rfl

end NoRule

/-! ## Cases, docstrings and imports -/

theorem isDefaultCase_case {i : NodeId} {p : Place} {pattern : Node} {guard : Field} {fs : List Field} :
    (Node.mk i .matchCase p (.child pattern :: guard :: fs)).isDefaultCase = true ↔
      guard = .none ∧ pattern.isIrrefutable = true := by
  cases guard <;> simp [Node.isDefaultCase]

theorem all_dropLast_map {cs : List Node} :
    (cs.dropLast.all fun c ↦ !c.isDefaultCase) = (cs.map Node.isDefaultCase).dropLast.all (!·) := by
  rw [← List.map_dropLast, List.all_map]
  rfl

/-- A docstring is a statement with a text. -/
theorem docstring?_isSome (n : Node) : n.docstring?.isSome = n.isDocstring := by
  unfold Node.isDocstring
  split
  next => rfl
  next hother =>
    unfold Node.docstring?
    split
    next i c p f fs =>
      split
      next hc =>
        subst hc
        unfold Field.stringConstant?
        split
        next =>
          unfold Node.stringConstant?
          split
          next => exact absurd rfl (hother _ _ _ _ _ _ _)
          next => rfl
        next => rfl
      next => rfl
    next => rfl

theorem Swollen.eq_constant_iff {f f' : Field} (h : Swollen f f') (c : Constant) :
    f' = .constant c ↔ f = .constant c := by
  cases h <;> simp

theorem Swollen.eq_text_iff {f f' : Field} (h : Swollen f f') (s : String) : f' = .text s ↔ f = .text s := by
  cases h <;> simp

theorem stringConstant?_eq_some {n : Node} {s : String} :
    n.stringConstant? = some s ↔ ∃ i p fs, n = .mk i (.plain .constant) p (.constant (.str s) :: fs) := by
  unfold Node.stringConstant?
  split
  next => simp
  next hother => simpa using fun i p fs heq ↦ hother i p s fs heq

theorem stringConstant?_of_swollen {i : NodeId} {c : NodeClass} {p p' : Place} {fs fs' : List Field}
    (h : List.Forall₂ Swollen fs fs') : (Node.mk i c p' fs').stringConstant? = (Node.mk i c p fs).stringConstant? := by
  ext s
  rw [stringConstant?_eq_some, stringConstant?_eq_some]
  cases h with
  | nil => simp
  | cons hf hfs => simp [hf.eq_constant_iff]

theorem isFutureImport_iff {i : NodeId} {c : NodeClass} {p : Place} {fs : List Field} :
    (Node.mk i c p fs).isFutureImport = true ↔ c = .plain .importFrom ∧ fs.head? = some (.text "__future__") := by
  unfold Node.isFutureImport
  split
  next heq =>
    cases heq
    simp
  next hother =>
    constructor
    · intro h
      cases h
    · rintro ⟨rfl, hhead⟩
      cases fs with
      | nil => cases hhead
      | cons f fs =>
        cases hhead
        exact absurd rfl (hother _ _ _ _)

theorem isFutureImport_of_swollen {i : NodeId} {c : NodeClass} {p p' : Place} {fs fs' : List Field}
    (h : List.Forall₂ Swollen fs fs') : (Node.mk i c p' fs').isFutureImport = (Node.mk i c p fs).isFutureImport := by
  rw [Bool.eq_iff_iff, isFutureImport_iff, isFutureImport_iff]
  cases h with
  | nil => rfl
  | cons hf => simp [hf.eq_text_iff]

/-! ## Places -/

section Places

variable (outer : Place)

theorem swollen_fillFields (fs : List Field) : List.Forall₂ Swollen fs (fillFields outer fs) := by
  induction fs with
  | nil => simp
  | cons f fs ih =>
    rw [fillFields_cons]
    refine .cons ?_ ih
    cases f with
    | child => exact .child
    | many => exact .many fun h ↦ by simpa using h
    | _ => exact .same

theorem listFilled_fillPlaces {field : String} {n : Node} (h : n.listFilled field = true) :
    (n.fillPlaces outer).listFilled field = true := by
  cases n with
  | gap => rwa [Node.fillPlaces_gap]
  | mk i c p fs =>
    rw [Node.fillPlaces_mk]
    exact listFilled_of_swollen (swollen_fillFields _ fs) h

theorem hasClause_fillPlaces {n : Node} (h : n.hasClause = true) : (n.fillPlaces outer).hasClause = true := by
  cases n with
  | gap => rwa [Node.fillPlaces_gap]
  | mk i c p fs =>
    rw [Node.fillPlaces_mk]
    exact hasClause_of_swollen (swollen_fillFields _ fs) h

theorem futureImport?_fillPlaces (n : Node) : (n.fillPlaces outer).futureImport? = n.futureImport? := by
  cases n with
  | gap => rw [Node.fillPlaces_gap]
  | mk i c p fs =>
    rw [Node.fillPlaces_mk, Node.futureImport?, Node.futureImport?,
      isFutureImport_of_swollen (swollen_fillFields _ fs)]

theorem isFutureImport_eq (n : Node) : n.isFutureImport = n.futureImport?.isSome := by
  cases n with
  | gap => rfl
  | mk i c p fs =>
    rw [Node.futureImport?]
    split <;> simp_all

theorem stringConstant?_fillPlaces (n : Node) : (n.fillPlaces outer).stringConstant? = n.stringConstant? := by
  cases n with
  | gap => rw [Node.fillPlaces_gap]
  | mk i c p fs =>
    rw [Node.fillPlaces_mk]
    exact stringConstant?_of_swollen (swollen_fillFields _ fs)

theorem docstring?_fillPlaces (n : Node) : (n.fillPlaces outer).docstring? = n.docstring? := by
  match n with
  | .gap => rw [Node.fillPlaces_gap]
  | .mk i c p [] =>
    rw [Node.fillPlaces_mk, fillFields_nil]
    rfl
  | .mk i c p (f :: fs) =>
    rw [Node.fillPlaces_mk, fillFields_cons, Node.docstring?, Node.docstring?]
    cases f with
    | child m => simp [Field.stringConstant?, stringConstant?_fillPlaces]
    | _ => rfl

theorem operandsPaired_fillPlaces {n : Node} (h : n.operandsPaired = true) :
    (n.fillPlaces outer).operandsPaired = true := by
  generalize heq : n.fillPlaces outer = n'
  unfold Node.operandsPaired
  split
  next =>
    obtain ⟨p, fs, rfl, -, hfs⟩ := fillPlaces_eq_mk.1 heq
    simp only [fillFields_eq_cons, fillFields_eq_nil, fillPlaces_eq_many] at hfs
    obtain ⟨op, _, rfl, -, _, _, rfl, ⟨values, rfl, rfl⟩, rfl⟩ := hfs
    simpa [Node.operandsPaired, fillNodes_eq_map] using h
  next => rfl

theorem anyIrrefutable_eq (ns : List Node) : Node.anyIrrefutable ns = ns.any Node.isIrrefutable := by
  induction ns with
  | nil => rw [Node.anyIrrefutable, List.any_nil]
  | cons n ns ih => rw [Node.anyIrrefutable, List.any_cons, ih]

/-- Patterns that match everything. -/
theorem isIrrefutable_iff {i : NodeId} {c : NodeClass} {p : Place} {fs : List Field} :
    (Node.mk i c p fs).isIrrefutable = true ↔
      (c = .plain .matchAs ∧ fs.head? = some .none) ∨
      (∃ m, c = .plain .matchAs ∧ fs.head? = some (.child m) ∧ m.isIrrefutable = true) ∨
      ∃ ms, c = .plain .matchOr ∧ fs.head? = some (.many ms) ∧ ∃ m ∈ ms, m.isIrrefutable = true := by
  rw [Node.isIrrefutable.eq_def]
  split
  next heq =>
    cases heq
    simp
  next heq =>
    cases heq
    simp
  next heq =>
    cases heq
    simp [anyIrrefutable_eq]
  next hnone hchild hmany =>
    cases fs with
    | nil => simp
    | cons f fs =>
      simp only [Bool.false_eq_true, List.head?_cons, Option.some.injEq, false_iff, not_or, not_and, not_exists]
      refine ⟨?_, ?_, ?_⟩
      · rintro rfl rfl
        exact hnone _ _ _ rfl
      · rintro m rfl rfl
        exact absurd rfl (hchild _ _ _ _)
      · rintro ms rfl rfl
        exact absurd rfl (hmany _ _ _ _)

theorem isIrrefutable_fillPlaces (n : Node) : (n.fillPlaces outer).isIrrefutable = n.isIrrefutable := by
  induction n using Node.induction generalizing outer with
  | gap => rw [Node.fillPlaces_gap]
  | mk i c p fs ih =>
    rw [Node.fillPlaces_mk, Bool.eq_iff_iff, isIrrefutable_iff, isIrrefutable_iff]
    cases fs with
    | nil => simp
    | cons f fs =>
      have hchildren : ∀ m ∈ f.children, ∀ o, (m.fillPlaces o).isIrrefutable = m.isIrrefutable :=
        fun m hm o ↦ ih m (mem_children List.mem_cons_self hm) o
      cases f with
      | child m => simp [hchildren m (List.mem_singleton.2 rfl)]
      | many ms =>
        have hms (o : Place) : (∃ m ∈ fillNodes o ms, m.isIrrefutable = true) ↔ ∃ m ∈ ms, m.isIrrefutable = true := by
          rw [fillNodes_eq_map]
          simp only [List.mem_map, exists_exists_and_eq_and]
          exact exists_congr fun m ↦ and_congr_right fun hm ↦ by rw [hchildren m hm]
        simp [hms]
      | _ => simp [Field.fillPlaces]

theorem isDefaultCase_iff {n : Node} :
    n.isDefaultCase = true ↔
      ∃ i p pattern fs, n = .mk i .matchCase p (.child pattern :: .none :: fs) ∧ pattern.isIrrefutable = true := by
  unfold Node.isDefaultCase
  split
  next => simp
  next hother => simpa using fun i p pattern fs heq ↦ absurd heq (hother i p pattern fs)

theorem isDefaultCase_fillPlaces (n : Node) : (n.fillPlaces outer).isDefaultCase = n.isDefaultCase := by
  rw [Bool.eq_iff_iff, isDefaultCase_iff, isDefaultCase_iff]
  constructor
  · rintro ⟨i, p, pattern, fs, heq, hpattern⟩
    obtain ⟨p, fs, rfl, -, hfs⟩ := fillPlaces_eq_mk.1 heq
    simp only [fillFields_eq_cons, fillPlaces_eq_child, fillPlaces_eq_none] at hfs
    obtain ⟨_, _, rfl, ⟨pattern, rfl, rfl⟩, _, fs, rfl, rfl, rfl⟩ := hfs
    rw [isIrrefutable_fillPlaces] at hpattern
    exact ⟨i, p, pattern, fs, rfl, hpattern⟩
  · rintro ⟨i, p, pattern, fs, rfl, hpattern⟩
    rw [Node.fillPlaces_mk, fillFields_cons, fillFields_cons]
    exact ⟨i, _, _, _, rfl, by rwa [isIrrefutable_fillPlaces]⟩

theorem defaultLast_fillPlaces {n : Node} (h : n.defaultLast = true) : (n.fillPlaces outer).defaultLast = true := by
  generalize heq : n.fillPlaces outer = n'
  unfold Node.defaultLast
  split
  next =>
    obtain ⟨p, fs, rfl, -, hfs⟩ := fillPlaces_eq_mk.1 heq
    simp only [fillFields_eq_cons, fillFields_eq_nil, fillPlaces_eq_child, fillPlaces_eq_many] at hfs
    obtain ⟨_, _, rfl, ⟨subject, rfl, -⟩, _, _, rfl, ⟨cases, rfl, rfl⟩, rfl⟩ := hfs
    have hmap : (fillNodes (NodeClass.innerPlace .matchStmt p outer) cases).map Node.isDefaultCase =
        cases.map Node.isDefaultCase := by
      rw [fillNodes_eq_map, List.map_map]
      exact List.map_congr_left fun n _ ↦ isDefaultCase_fillPlaces _ n
    change (cases.dropLast.all fun c ↦ !c.isDefaultCase) = true at h
    rwa [all_dropLast_map, hmap, ← all_dropLast_map]
  next => rfl

theorem leadingText?_fillNodes (body : List Node) : leadingText? (fillNodes outer body) = leadingText? body := by
  cases body with
  | nil => rw [fillNodes_nil]
  | cons s body =>
    rw [fillNodes_cons]
    exact docstring?_fillPlaces outer s

/-- Places do not matter to which bodies can be documented. -/
theorem documentedBody?_fillPlaces (n : Node) :
    ∃ inner, (n.fillPlaces outer).documentedBody? = n.documentedBody?.map (fillNodes inner) := by
  cases hn : n.documentedBody? with
  | some body =>
    unfold Node.documentedBody? at hn
    split at hn
    · cases hn
      exact ⟨_, by simp only [Node.fillPlaces_mk, fillFields_cons, fillFields_nil]; rfl⟩
    · cases hn
      exact ⟨_, by simp only [Node.fillPlaces_mk, fillFields_cons, fillFields_nil]; rfl⟩
    · cases hn
      exact ⟨_, by simp only [Node.fillPlaces_mk, fillFields_cons, fillFields_nil]; rfl⟩
    · cases hn
  | none =>
    refine ⟨outer, ?_⟩
    generalize heq : n.fillPlaces outer = n'
    unfold Node.documentedBody?
    split
    next =>
      obtain ⟨p, fs, rfl, -, hfs⟩ := fillPlaces_eq_mk.1 heq
      simp only [fillFields_eq_cons, fillFields_eq_nil, fillPlaces_eq_many] at hfs
      obtain ⟨_, _, rfl, ⟨body, rfl, -⟩, _, _, rfl, -, rfl⟩ := hfs
      cases hn
    next =>
      obtain ⟨p, fs, rfl, -, hfs⟩ := fillPlaces_eq_mk.1 heq
      simp only [fillFields_eq_cons, fillFields_eq_nil, fillPlaces_eq_many] at hfs
      obtain ⟨_, _, rfl, -, _, _, rfl, ⟨_, rfl, -⟩, _, _, rfl, ⟨_, rfl, -⟩, _, _, rfl, ⟨_, rfl, -⟩, _, _, rfl,
        ⟨_, rfl, -⟩, rfl⟩ := hfs
      cases hn
    next =>
      obtain ⟨p, fs, rfl, -, hfs⟩ := fillPlaces_eq_mk.1 heq
      simp only [fillFields_eq_cons, fillFields_eq_nil, fillPlaces_eq_many, fillPlaces_eq_text,
        fillPlaces_eq_child] at hfs
      obtain ⟨_, _, rfl, rfl, _, _, rfl, ⟨_, rfl, -⟩, _, _, rfl, ⟨_, rfl, -⟩, _, _, rfl, ⟨_, rfl, -⟩, _, _, rfl, -,
        _, _, rfl, -, rfl⟩ := hfs
      cases hn
    next => rfl

theorem documentation?_fillPlaces (n : Node) : (n.fillPlaces outer).documentation? = n.documentation? := by
  cases n with
  | gap => rw [Node.fillPlaces_gap]
  | mk i c p fs =>
    obtain ⟨inner, hbody⟩ := documentedBody?_fillPlaces outer (.mk i c p fs)
    rw [Node.fillPlaces_mk] at hbody ⊢
    rw [Node.documentation?, Node.documentation?, hbody, Option.map_map]
    exact congrFun (congrArg _ (funext fun body ↦ by simp [leadingText?_fillNodes])) _

theorem futureImports_fillNodes (ns : List Node) : futureImports (fillNodes outer ns) = futureImports ns := by
  rw [futureImports, fillNodes_eq_map, List.filterMap_map]
  exact List.filterMap_congr fun n _ ↦ futureImport?_fillPlaces outer n

theorem opening_fillNodes (doc : Bool) (ns : List Node) :
    opening doc (fillNodes outer ns) = fillNodes outer (opening doc ns) := by
  induction ns generalizing doc with
  | nil => rw [fillNodes_nil, opening, fillNodes_nil]
  | cons n ns ih =>
    have hfuture : (n.fillPlaces outer).isFutureImport = n.isFutureImport := by
      rw [isFutureImport_eq, isFutureImport_eq, futureImport?_fillPlaces]
    have hdoc : (n.fillPlaces outer).isDocstring = n.isDocstring := by
      rw [← docstring?_isSome, ← docstring?_isSome, docstring?_fillPlaces]
    rw [fillNodes_cons, opening, opening, hfuture, hdoc, ih]
    split <;> simp

theorem moduleBody_fillPlaces (n : Node) : ∃ inner, (n.fillPlaces outer).moduleBody = fillNodes inner n.moduleBody := by
  cases n with
  | gap => exact ⟨outer, by simp [Node.moduleBody]⟩
  | mk i c p fs =>
    cases c with
    | module =>
      obtain ⟨inner, hbody⟩ := documentedBody?_fillPlaces outer (.mk i .module p fs)
      refine ⟨inner, ?_⟩
      rw [Node.fillPlaces_mk] at hbody ⊢
      rw [Node.moduleBody, Node.moduleBody, hbody]
      cases (Node.mk i .module p fs).documentedBody? <;> simp
    | _ => exact ⟨outer, by simp [Node.moduleBody]⟩

end Places

end Coverage.Pass
