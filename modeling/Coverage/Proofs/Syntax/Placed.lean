import Coverage.Pass.Check
import Coverage.Proofs.Syntax.Places

/-!
# Trees in which no place is missing

Filling in places leads to a tree in which every node that can carry a place has all numbers of one, and leaves
such a tree as it is. A tree like this passes the check before a pass, whatever is marked or excluded.
-/

namespace Coverage.Syntax

mutual
/-- Whether every node that can carry a place has all numbers of one. -/
def Node.placed : Node → Bool
  | .gap => true
  | .mk _ c p fs => (!c.role.placeable || p.span?.isSome) && fieldsPlaced fs

def fieldsPlaced : List Field → Bool
  | [] => true
  | f :: fs => f.placed && fieldsPlaced fs

def Field.placed : Field → Bool
  | .child n => n.placed
  | .many ns => nodesPlaced ns
  | _ => true

def nodesPlaced : List Node → Bool
  | [] => true
  | n :: ns => n.placed && nodesPlaced ns
end

theorem placed_mk {i : NodeId} {c : NodeClass} {p : Place} {fs : List Field} :
    (Node.mk i c p fs).placed = true ↔
      (c.role.placeable = true → p.span?.isSome = true) ∧ fieldsPlaced fs = true := by
  rw [Node.placed]
  cases c.role.placeable <;> simp

theorem fieldsPlaced_cons {f : Field} {fs : List Field} :
    fieldsPlaced (f :: fs) = true ↔ f.placed = true ∧ fieldsPlaced fs = true := by
  rw [fieldsPlaced, Bool.and_eq_true]

theorem placed_child {n : Node} : (Field.child n).placed = n.placed := by rw [Field.placed]

theorem placed_many {ns : List Node} : (Field.many ns).placed = nodesPlaced ns := by rw [Field.placed]

theorem nodesPlaced_cons {n : Node} {ns : List Node} :
    nodesPlaced (n :: ns) = true ↔ n.placed = true ∧ nodesPlaced ns = true := by
  rw [nodesPlaced, Bool.and_eq_true]

theorem Place.fill_eq_self {p : Place} (outer : Place) (h : p.span?.isSome = true) : p.fill outer = p := by
  unfold Place.span? at h
  split at h
  next => rfl
  next => cases h

theorem Place.span?_fill {outer : Place} (p : Place) (h : outer.span?.isSome = true) :
    (p.fill outer).span?.isSome = true := by
  unfold Place.span? at h
  split at h
  next =>
    obtain ⟨_ | _, _ | _, _ | _, _ | _⟩ := p <;> rfl
  next => cases h

mutual
/-- Below a place that lacks none of its numbers no place is missing after they are filled in. -/
theorem placed_fillPlaces {outer : Place} (h : outer.span?.isSome = true) :
    ∀ n : Node, (n.fillPlaces outer).placed = true
  | .gap => by simp [Node.placed]
  | .mk i c p fs => by
    rw [Node.fillPlaces_mk, placed_mk, NodeClass.ownPlace, NodeClass.innerPlace]
    split
    next => exact ⟨fun _ ↦ Place.span?_fill p h, placed_fillFields (Place.span?_fill p h) fs⟩
    next hrole => exact ⟨fun hc ↦ absurd hc hrole, placed_fillFields h fs⟩

theorem placed_fillFields {outer : Place} (h : outer.span?.isSome = true) :
    ∀ fs : List Field, fieldsPlaced (fillFields outer fs) = true
  | [] => by simp [fieldsPlaced]
  | .child n :: fs => by
    simp [fieldsPlaced_cons, placed_child, placed_fillPlaces h n, placed_fillFields h fs]
  | .many ns :: fs => by
    simp [fieldsPlaced_cons, placed_many, placed_fillNodes h ns, placed_fillFields h fs]
  | .none :: fs | .text _ :: fs | .number _ :: fs | .constant _ :: fs | .names _ :: fs => by
    simp [fieldsPlaced_cons, Field.placed, Field.fillPlaces, placed_fillFields h fs]

theorem placed_fillNodes {outer : Place} (h : outer.span?.isSome = true) :
    ∀ ns : List Node, nodesPlaced (fillNodes outer ns) = true
  | [] => by simp [nodesPlaced]
  | n :: ns => by simp [nodesPlaced_cons, placed_fillPlaces h n, placed_fillNodes h ns]
end

mutual
/-- There is nothing to fill in where no place is missing. -/
theorem fillPlaces_eq_self (outer : Place) : ∀ n : Node, n.placed = true → n.fillPlaces outer = n
  | .gap, _ => by simp
  | .mk i c p fs, h => by
    obtain ⟨hp, hfs⟩ := placed_mk.1 h
    have hown : c.ownPlace p outer = p := by
      unfold NodeClass.ownPlace
      split
      next hrole => exact Place.fill_eq_self outer (hp hrole)
      next => rfl
    rw [Node.fillPlaces_mk, hown, fillFields_eq_self _ fs hfs]

theorem fillFields_eq_self (outer : Place) : ∀ fs : List Field, fieldsPlaced fs = true → fillFields outer fs = fs
  | [], _ => by simp
  | .child n :: fs, h => by
    rw [fieldsPlaced_cons, placed_child] at h
    rw [fillFields_cons, Field.fillPlaces_child, fillPlaces_eq_self outer n h.1, fillFields_eq_self outer fs h.2]
  | .many ns :: fs, h => by
    rw [fieldsPlaced_cons, placed_many] at h
    rw [fillFields_cons, Field.fillPlaces_many, fillNodes_eq_self outer ns h.1, fillFields_eq_self outer fs h.2]
  | .none :: fs, h | .text _ :: fs, h | .number _ :: fs, h | .constant _ :: fs, h | .names _ :: fs, h => by
    rw [fieldsPlaced_cons] at h
    rw [fillFields_cons, Field.fillPlaces, fillFields_eq_self outer fs h.2]
    all_goals simp

theorem fillNodes_eq_self (outer : Place) : ∀ ns : List Node, nodesPlaced ns = true → fillNodes outer ns = ns
  | [], _ => by simp
  | n :: ns, h => by
    rw [nodesPlaced_cons] at h
    rw [fillNodes_cons, fillPlaces_eq_self outer n h.1, fillNodes_eq_self outer ns h.2]
end

theorem Role.placeable_of_required {r : Role} (h : r.required = true) : r.placeable = true := by
  cases r <;> first | rfl | cases h

end Coverage.Syntax

namespace Coverage

open Syntax

variable {plan : Plan} {marks : Marks}

mutual
/-- A tree in which no place is missing passes every check. -/
theorem checkPlaces_of_placed : ∀ n : Node, n.placed = true → checkPlaces plan marks n = .ok ()
  | .gap, _ => by rw [checkPlaces]
  | .mk i c p fs, h => by
    obtain ⟨hp, hfs⟩ := placed_mk.1 h
    have hspan : ¬(c.role.required && p.span?.isNone) = true := by
      intro hlacks
      rw [Bool.and_eq_true] at hlacks
      have hsome := hp (Role.placeable_of_required hlacks.1)
      rw [← Option.not_isSome, hsome] at hlacks
      cases hlacks.2
    rw [checkPlaces, if_neg hspan]
    split
    next => rfl
    next => exact checkFields_of_placed c.fieldNames fs hfs

theorem checkFields_of_placed :
    ∀ (names : List String) (fs : List Field), fieldsPlaced fs = true → checkFields plan marks names fs = .ok ()
  | [], _, _ => by rw [checkFields]; simp
  | _ :: _, [], _ => by rw [checkFields]; simp
  | name :: names, f :: fs, h => by
    rw [fieldsPlaced_cons] at h
    rw [checkFields, checkFields_of_placed names fs h.2, checkField_of_placed f h.1]
    cases isSkippedField name <;> rfl

theorem checkField_of_placed : ∀ f : Field, f.placed = true → checkField plan marks f = .ok ()
  | .child n, h => by
    rw [placed_child] at h
    rw [checkField, checkPlaces_of_placed n h]
  | .many ns, h => by
    rw [placed_many] at h
    rw [checkField, checkNodes_of_placed ns h]
  | .none, _ | .text _, _ | .number _, _ | .constant _, _ | .names _, _ => by rw [checkField] <;> simp

theorem checkNodes_of_placed : ∀ ns : List Node, nodesPlaced ns = true → checkNodes plan marks ns = .ok ()
  | [], _ => by rw [checkNodes]
  | n :: ns, h => by
    rw [nodesPlaced_cons] at h
    rw [checkNodes, checkPlaces_of_placed n h.1, checkNodes_of_placed ns h.2]
    rfl
end

end Coverage
