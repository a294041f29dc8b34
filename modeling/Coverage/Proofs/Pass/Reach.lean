import Coverage.Proofs.Pass.Woven
import Coverage.Proofs.Syntax.Nodes

/-!
# Where a walk goes

A walk goes from a node into the nodes below it, but not into marked nodes, excluded statements and annotations. At the
clauses of a `match` or `try` it does not look: it goes into their guards, types and bodies, and not into patterns. A
walk that starts in a set of nodes which it cannot leave stays there, so what it does is said of nodes of this set.

A probe for an event has the place of one node, its anchor: the statement or expression that the event starts, or the
header of a statement that has no clause for it.
-/

namespace Coverage.Program

def Event.node : Event → Syntax.NodeId
  | .started i | .entered i | .took i _ => i

end Coverage.Program

namespace Coverage.Pass

open Syntax Program

/-! ## Sets that a walk cannot leave -/

def isBlockField (name : String) : Bool := name == "body" || name == "orelse" || name == "finalbody"

def isClauseField (name : String) : Bool := name == "cases" || name == "handlers"

/-- A field that a walk goes into, with its name. The rules for statements with clauses go past these. -/
def openField? (c : NodeClass) (fs : List Field) (k : Nat) : Option (String × Field) := do
  let name ← c.fieldNames[k]?
  let f ← fs[k]?
  if isSkippedField name || (hasRule c fs && isClauseField name) then none else some (name, f)

section Sets

variable (plan : Plan) (marks : Marks) (E : Node → Prop)

/-- From the field a walk goes into nodes of the set only. Excluded statements of blocks may be outside. -/
def Stays (name : String) : Field → Prop
  | .child n => n ≠ .gap → marks.holds n = false → E n
  | .many ns => ∀ n ∈ ns, n ≠ .gap → marks.holds n = false →
      (isBlockField name = true → startsBlock ns = true → plan.excludes n = false) → E n
  | _ => True

/-- A walk cannot leave the set. -/
structure Encloses : Prop where
  field : ∀ {i c p fs name f} (k : Nat), E (.mk i c p fs) → openField? c fs k = some (name, f) →
    Stays plan marks E name f
  case : ∀ {i p subject cases j c q pattern guard body}, E (.mk i .matchStmt p [.child subject, .many cases]) →
    .mk j c q [pattern, guard, .many body] ∈ cases →
      Stays plan marks E "guard" guard ∧ Stays plan marks E "body" (.many body)
  handler : ∀ {i star p body handlers orelse finalbody j c q type name block},
    E (.mk i (.tryStmt star) p [.many body, .many handlers, .many orelse, .many finalbody]) →
    .mk j c q [type, name, .many block] ∈ handlers →
      Stays plan marks E "type" type ∧ Stays plan marks E "body" (.many block)

end Sets

section Stays

variable {plan : Plan} {marks : Marks} {E : Node → Prop} {name : String} {ns : List Node}

theorem Stays.block (h : Stays plan marks E name (.many ns)) :
    ∀ n ∈ ns, n ≠ .gap → marks.holds n = false → plan.excludes n = false → E n :=
  fun n hn hgap free kept ↦ h n hn hgap free fun _ _ ↦ kept

/-- A list that is no block is walked node by node. -/
theorem Stays.all (h : Stays plan marks E name (.many ns))
    (hlist : isBlockField name = false ∨ startsBlock ns = false) :
    ∀ n ∈ ns, n ≠ .gap → marks.holds n = false → E n := by
  intro n hn hgap free
  refine h n hn hgap free fun hname starts ↦ ?_
  rcases hlist with hlist | hlist
  · rw [hlist] at hname
    cases hname
  · rw [hlist] at starts
    cases starts

/-- A node without a rule of its own is walked field by field. -/
theorem Encloses.plain (h : Encloses plan marks E) {i : NodeId} {c : NodeClass} {p : Place} {fs : List Field}
    (hself : E (.mk i c p fs)) (noRule : hasRule c fs = false) (k : Nat) {f : Field}
    (hname : c.fieldNames[k]? = some name)
    (hf : fs[k]? = some f) (into : isSkippedField name = false) : Stays plan marks E name f :=
  h.field k hself (by simp [openField?, hname, hf, into, noRule])

theorem stays_of_subset {f : Field} (h : ∀ n ∈ f.children, n ≠ .gap → E n) (name : String) :
    Stays plan marks E name f := by
  cases f with
  | child n => exact fun hgap _ ↦ h n (List.mem_singleton.2 rfl) hgap
  | many ns => exact fun n hn hgap _ _ ↦ h n hn hgap
  | _ => trivial

/-- An open field is not skipped and, where there is a rule, no clause. -/
theorem mem_of_openField? {c : NodeClass} {fs : List Field} {k : Nat} {f : Field}
    (h : openField? c fs k = some (name, f)) :
    c.fieldNames[k]? = some name ∧ fs[k]? = some f ∧ isSkippedField name = false ∧
      (hasRule c fs = true → isClauseField name = false) := by
  unfold openField? at h
  obtain ⟨_, hname, h⟩ := Option.bind_eq_some_iff.1 h
  obtain ⟨_, hf, h⟩ := Option.bind_eq_some_iff.1 h
  split at h
  next => cases h
  next hopen =>
    cases h
    simp only [Bool.or_eq_true, Bool.and_eq_true, not_or, not_and, Bool.not_eq_true] at hopen
    exact ⟨hname, hf, hopen⟩

/-- A walk stays in the tree. -/
theorem encloses_nodes (tree : Node) : Encloses plan marks (· ∈ tree.nodes) := by
  have hbelow : ∀ {i c p fs f}, .mk i c p fs ∈ tree.nodes → f ∈ fs → ∀ name, Stays plan marks (· ∈ tree.nodes) name f :=
    fun hself hf ↦ stays_of_subset fun n hn hgap ↦ nodes_trans hself (child_mem_nodes (mem_children hf hn) hgap)
  have hclause : ∀ {i c p fs ns j d q gs}, .mk i c p fs ∈ tree.nodes → .many ns ∈ fs → .mk j d q gs ∈ ns →
      .mk j d q gs ∈ tree.nodes :=
    fun hself hns hn ↦ nodes_trans hself (child_mem_nodes (many_subset_children hns hn) Node.mk_ne_gap)
  refine ⟨fun k hself hopen ↦ hbelow hself (List.mem_of_getElem? (mem_of_openField? hopen).2.1) _, ?_, ?_⟩
  · intro i p subject cases j c q pattern guard body hself hcase
    have hn := hclause hself (by simp) hcase
    exact ⟨hbelow hn (by simp) _, hbelow hn (by simp) _⟩
  · intro i star p body handlers orelse finalbody j c q type name block hself hhandler
    have hn := hclause hself (by simp) hhandler
    exact ⟨hbelow hn (by simp) _, hbelow hn (by simp) _⟩

end Stays

/-! ## Arms -/

def caseBody? : Node → Option (List Node)
  | .mk _ .matchCase _ [_, _, .many body] => some body
  | _ => none

def armBlock? : Node → Nat → Option (List Node)
  | .mk _ .ifStmt _ [.child _, .many body, .many _], 0 => some body
  | .mk _ .ifStmt _ [.child _, .many _, .many orelse], 1 => some orelse
  | .mk _ .whileLoop _ [.child _, .many body, .many _], 0 => some body
  | .mk _ .whileLoop _ [.child _, .many _, .many orelse], 1 => some orelse
  | .mk _ (.forLoop _) _ [.child _, .child _, .many body, .many _, _], 0 => some body
  | .mk _ (.forLoop _) _ [.child _, .child _, .many _, .many orelse, _], 1 => some orelse
  | .mk _ .matchStmt _ [.child _, .many cases], a => cases[a]? >>= caseBody?
  | _, _ => none

/-- The expression that is evaluated when an arm of an expression is taken. -/
def armExpr? : Node → Nat → Option Node
  | .mk _ .ifExp _ [.child _, .child body, .child _], 0 => some body
  | .mk _ .ifExp _ [.child _, .child _, .child orelse], 1 => some orelse
  | .mk _ .boolOp _ [_, .many values], a => values[a]?
  | _, _ => none

/-! ## Anchors -/

def firstOr (other : Node) (ns : List Node) : Node := ns.head?.getD other

def clauseAnchor (header : Node) (body orelse : List Node) : Nat → Node
  | 0 => firstOr .gap body
  | _ => firstOr header orelse

/-- The first statement of the block of an arm, or the header if there is no clause for the arm; the expression of an
arm. -/
def armAnchor : Node → Nat → Node
  | .mk _ .ifStmt _ [.child test, .many body, .many orelse], a => clauseAnchor test body orelse a
  | .mk _ .whileLoop _ [.child test, .many body, .many orelse], a => clauseAnchor test body orelse a
  | .mk _ (.forLoop _) _ [.child _, .child iter, .many body, .many orelse, _], a => clauseAnchor iter body orelse a
  | .mk _ .matchStmt _ [.child subject, .many cases], a =>
    cases[a]?.elim subject fun c ↦ firstOr .gap ((caseBody? c).getD [])
  | .mk _ (.tryStmt _) _ [.many body, _, _, _], _ => firstOr .gap body
  | n, a => (armExpr? n a).getD .gap

/-- The first statement of a body after the docstring, or the docstring if there is no other. -/
def bodyAnchor (body : List Node) : Node :=
  if startsWithDocstring body then firstOr (firstOr .gap body) body.tail else firstOr .gap body

def entryAnchor : Node → Node
  | .mk _ (.functionDef _) _ [_, _, .many body, _, _, _] => bodyAnchor body
  | .mk _ .lambda _ [_, .child body] => body
  | _ => .gap

/-- The node that a probe for an event of a node has its place from. -/
def anchorOf (n : Node) : Event → Node
  | .started _ => n
  | .entered _ => entryAnchor n
  | .took _ a => armAnchor n a

end Coverage.Pass
