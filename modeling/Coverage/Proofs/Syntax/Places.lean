import Coverage.Syntax.Node

/-!
# Filling in places

Filling in the missing numbers of places changes nothing else: a tree and its filled form have the same
classes and fields. The lemmas here are the equations of `Node.fillPlaces` in a form that simplification can
use in both directions, so that functions which do not look at places can be shown not to depend on them.
-/

namespace Coverage.Syntax

def Field.fillPlaces (outer : Place) : Field → Field
  | .child n => .child (n.fillPlaces outer)
  | .many ns => .many (fillNodes outer ns)
  | f => f

def NodeClass.ownPlace (c : NodeClass) (p outer : Place) : Place := if c.role.placeable then p.fill outer else p

/-- The place that the nodes below a node of a class take numbers from. -/
def NodeClass.innerPlace (c : NodeClass) (p outer : Place) : Place := if c.role.placeable then p.fill outer else outer

def placeAt (line column : Int) : Place := ⟨some line, some column, some line, some (column + 1)⟩

variable {outer : Place}

attribute [local simp] Field.fillPlaces

@[simp]
theorem Field.fillPlaces_child (n : Node) : (Field.child n).fillPlaces outer = .child (n.fillPlaces outer) := rfl

@[simp]
theorem Field.fillPlaces_many (ns : List Node) : (Field.many ns).fillPlaces outer = .many (fillNodes outer ns) := rfl

@[simp]
theorem Field.fillPlaces_none : Field.none.fillPlaces outer = .none := rfl

@[simp]
theorem Field.fillPlaces_text (s : String) : (Field.text s).fillPlaces outer = .text s := rfl

@[simp]
theorem Field.fillPlaces_constant (c : Constant) : (Field.constant c).fillPlaces outer = .constant c := rfl

@[simp]
theorem Field.fillPlaces_names (xs : List String) : (Field.names xs).fillPlaces outer = .names xs := rfl

section Equations

attribute [local simp] Node.fillPlaces fillFields fillNodes

@[simp]
theorem Node.fillPlaces_gap : Node.gap.fillPlaces outer = .gap := by simp

@[simp]
theorem Node.fillPlaces_mk (i : NodeId) (c : NodeClass) (p : Place) (fs : List Field) :
    (Node.mk i c p fs).fillPlaces outer = .mk i c (c.ownPlace p outer) (fillFields (c.innerPlace p outer) fs) := by
  rw [Node.fillPlaces, NodeClass.ownPlace, NodeClass.innerPlace]
  split <;> rfl

@[simp]
theorem fillFields_nil : fillFields outer [] = [] := by simp

@[simp]
theorem fillFields_cons (f : Field) (fs : List Field) :
    fillFields outer (f :: fs) = f.fillPlaces outer :: fillFields outer fs := by
  cases f <;> simp

@[simp]
theorem fillNodes_nil : fillNodes outer [] = [] := by simp

@[simp]
theorem fillNodes_cons (n : Node) (ns : List Node) :
    fillNodes outer (n :: ns) = n.fillPlaces outer :: fillNodes outer ns := by simp

end Equations

@[simp]
theorem fillNodes_append (ns ms : List Node) :
    fillNodes outer (ns ++ ms) = fillNodes outer ns ++ fillNodes outer ms := by
  induction ns with
  | nil => simp
  | cons n ns ih => simp [ih]

/-! ## Shapes -/

theorem fillNodes_eq_map (ns : List Node) : fillNodes outer ns = ns.map (Node.fillPlaces outer) := by
  induction ns with
  | nil => simp
  | cons n ns ih => simp [ih]

theorem fillFields_eq_map (fs : List Field) : fillFields outer fs = fs.map (Field.fillPlaces outer) := by
  induction fs with
  | nil => simp
  | cons f fs ih => simp [ih]

@[simp]
theorem fillPlaces_eq_child {f : Field} {n' : Node} :
    f.fillPlaces outer = .child n' ↔ ∃ n, f = .child n ∧ n.fillPlaces outer = n' := by
  cases f <;> simp

@[simp]
theorem fillPlaces_eq_many {f : Field} {ns' : List Node} :
    f.fillPlaces outer = .many ns' ↔ ∃ ns, f = .many ns ∧ fillNodes outer ns = ns' := by
  cases f <;> simp

@[simp]
theorem fillPlaces_eq_none {f : Field} : f.fillPlaces outer = .none ↔ f = .none := by
  cases f <;> simp

@[simp]
theorem fillPlaces_eq_text {f : Field} {s : String} : f.fillPlaces outer = .text s ↔ f = .text s := by
  cases f <;> simp

@[simp]
theorem fillPlaces_eq_constant {f : Field} {c : Constant} :
    f.fillPlaces outer = .constant c ↔ f = .constant c := by
  cases f <;> simp

@[simp]
theorem fillPlaces_eq_names {f : Field} {xs : List String} : f.fillPlaces outer = .names xs ↔ f = .names xs := by
  cases f <;> simp

/-- What a node was before places were filled in. -/
@[simp]
theorem fillPlaces_eq_mk {n : Node} {i : NodeId} {c : NodeClass} {p' : Place} {fs' : List Field} :
    n.fillPlaces outer = .mk i c p' fs' ↔
      ∃ p fs, n = .mk i c p fs ∧ c.ownPlace p outer = p' ∧ fillFields (c.innerPlace p outer) fs = fs' := by
  cases n with
  | gap => simp
  | mk j d q gs =>
    rw [Node.fillPlaces_mk]
    constructor
    · intro h
      cases h
      exact ⟨q, gs, rfl, rfl, rfl⟩
    · rintro ⟨p, fs, h, rfl, rfl⟩
      cases h
      rfl

@[simp]
theorem fillFields_eq_nil {fs : List Field} : fillFields outer fs = [] ↔ fs = [] := by
  rw [fillFields_eq_map, List.map_eq_nil_iff]

@[simp]
theorem fillFields_eq_cons {fs : List Field} {f' : Field} {fs' : List Field} :
    fillFields outer fs = f' :: fs' ↔ ∃ f rest, fs = f :: rest ∧ f.fillPlaces outer = f' ∧
      fillFields outer rest = fs' := by
  rw [fillFields_eq_map, List.map_eq_cons_iff]
  simp only [fillFields_eq_map]

@[simp]
theorem fillNodes_eq_nil {ns : List Node} : fillNodes outer ns = [] ↔ ns = [] := by
  rw [fillNodes_eq_map, List.map_eq_nil_iff]

@[simp]
theorem fillNodes_eq_cons {ns : List Node} {n' : Node} {ns' : List Node} :
    fillNodes outer ns = n' :: ns' ↔ ∃ n rest, ns = n :: rest ∧ n.fillPlaces outer = n' ∧
      fillNodes outer rest = ns' := by
  rw [fillNodes_eq_map, List.map_eq_cons_iff]
  simp only [fillNodes_eq_map]

end Coverage.Syntax
