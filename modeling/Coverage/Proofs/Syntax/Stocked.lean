import Coverage.Proofs.Syntax.Grammar

/-!
# Lists that a walk takes a node of

A walk measures bodies, operands and cases by their first and last nodes, so these lists must not be empty: the
bodies of functions, of branches and loops, of `try` and of cases, the cases of a `match` and the operands of `and`
and `or`. A tree is *stocked* if none of them is. Every full tree is; of a stocked tree that is not full, classes,
`with` statements and handlers can be without a body.
-/

namespace Coverage.Syntax

/-- The list that a walk takes a node of. -/
def NodeClass.stock? : NodeClass → List Field → Option (List Node)
  | .functionDef _, [_, _, .many body, _, _, _] => some body
  | .ifStmt, [_, .many body, _] => some body
  | .boolOp, [_, .many values] => some values
  | .matchStmt, [_, .many cases] => some cases
  | .matchCase, [_, _, .many body] => some body
  | .whileLoop, [_, .many body, _] => some body
  | .forLoop _, [_, _, .many body, _, _] => some body
  | .tryStmt _, [.many body, _, _, _] => some body
  | _, _ => none

mutual
/-- Whether no list that a walk takes a node of is empty, in a tree. -/
def Node.stocked : Node → Bool
  | .gap => true
  | .mk _ c _ fs => (c.stock? fs).all (!·.isEmpty) && fieldsStocked fs

def fieldsStocked : List Field → Bool
  | [] => true
  | f :: fs => f.stocked && fieldsStocked fs

def Field.stocked : Field → Bool
  | .child n => n.stocked
  | .many ns => nodesStocked ns
  | _ => true

def nodesStocked : List Node → Bool
  | [] => true
  | n :: ns => n.stocked && nodesStocked ns
end

section Stocked

variable {i : NodeId} {c : NodeClass} {p : Place} {f : Field} {fs : List Field} {n : Node} {ns : List Node}

theorem stocked_mk : (Node.mk i c p fs).stocked = true ↔
    (∀ ns, c.stock? fs = some ns → ns ≠ []) ∧ fieldsStocked fs = true := by
  rw [Node.stocked, Bool.and_eq_true, Option.all_eq_true]
  simp

theorem fieldsStocked_cons : fieldsStocked (f :: fs) = true ↔ f.stocked = true ∧ fieldsStocked fs = true := by
  rw [fieldsStocked, Bool.and_eq_true]

theorem stocked_child : (Field.child n).stocked = true ↔ n.stocked = true := by rw [Field.stocked]

theorem stocked_many : (Field.many ns).stocked = true ↔ nodesStocked ns = true := by rw [Field.stocked]

theorem nodesStocked_cons : nodesStocked (n :: ns) = true ↔ n.stocked = true ∧ nodesStocked ns = true := by
  rw [nodesStocked, Bool.and_eq_true]

theorem stocked_of_mem (h : nodesStocked ns = true) (hn : n ∈ ns) : n.stocked = true := by
  induction ns with
  | nil => cases hn
  | cons m ns ih =>
    rw [nodesStocked_cons] at h
    rcases List.mem_cons.1 hn with rfl | hn
    · exact h.1
    · exact ih h.2 hn

end Stocked

/-! ## Full trees -/

theorem stock_ne_nil_of_shape {c : NodeClass} {fs : List Field} (h : Shape true c fs) {ns : List Node}
    (hns : c.stock? fs = some ns) : ns ≠ [] := by
  cases h with
  | functionDef hargs hsome | ifStmt htest hsome | boolOp hop hsome | matchStmt hsubject hsome
  | matchCase hpattern hguard hsome | whileLoop htest hsome | forLoop htarget hiter hsome | tryStmt hsome =>
    cases hns
    exact hsome rfl
  | _ => cases hns

mutual
theorem stocked_of_isA {cat : Category} : ∀ n : Node, n.isA true cat = true → n.stocked = true
  | .gap, h => by simp [Node.isA] at h
  | .mk _ c _ fs, h => by
    have hfs := (isA_mk.1 h).2
    exact stocked_mk.2 ⟨fun _ ↦ stock_ne_nil_of_shape (shape_of_fits hfs), fieldsStocked_of_fit c.contents fs hfs⟩

theorem fieldsStocked_of_fit : ∀ (contents : List Content) (fs : List Field),
    fieldsFit true contents fs = true → fieldsStocked fs = true
  | _, [], _ => by rw [fieldsStocked]
  | [], _ :: _, h => by simp [fieldsFit] at h
  | content :: contents, f :: fs, h => by
    rw [fieldsFit, Bool.and_eq_true] at h
    exact fieldsStocked_cons.2 ⟨fieldStocked_of_fits content f h.1, fieldsStocked_of_fit contents fs h.2⟩

/-- The full grammar has the lists that a walk takes nodes of. -/
theorem fieldStocked_of_fits (content : Content) : ∀ f : Field, f.fits true content = true → f.stocked = true
  | .child n, h => by
    cases content with
    | one cat | optional cat => exact stocked_child.2 (stocked_of_isA n (by simpa [Field.fits] using h))
    | _ => simp [Field.fits] at h
  | .many ns, h => by
    cases content with
    | atom =>
      obtain rfl : ns = [] := by simpa [Field.fits] using h
      rfl
    | list cat nonempty =>
      obtain ⟨_, heq, -, hns⟩ := fits_list.1 h
      cases heq
      exact stocked_many.2 (nodesStocked_of_are ns hns)
    | gaps cat =>
      obtain ⟨_, heq, hns⟩ := fits_gaps.1 h
      cases heq
      exact stocked_many.2 (nodesStocked_of_are ns hns)
    | _ => simp [Field.fits] at h
  | .none, _ | .text _, _ | .number _, _ | .constant _, _ | .names _, _ => by rw [Field.stocked] <;> simp

theorem nodesStocked_of_are {gaps : Bool} {cat : Category} :
    ∀ ns : List Node, nodesAre true gaps cat ns = true → nodesStocked ns = true
  | [], _ => by rw [nodesStocked]
  | n :: ns, h => by
    obtain ⟨hn, hns⟩ := nodesAre_cons.1 h
    refine nodesStocked_cons.2 ⟨?_, nodesStocked_of_are ns hns⟩
    rcases hn with hn | ⟨-, rfl⟩
    · exact stocked_of_isA n hn
    · rw [Node.stocked]
end

end Coverage.Syntax
