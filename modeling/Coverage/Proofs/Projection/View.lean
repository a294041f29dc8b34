import Coverage.Proofs.Correspondence.Calls
import Coverage.Proofs.Span
import Coverage.Proofs.Syntax.Placed

/-!
# Views of an instrumented tree

An injected call names the units it counts by their keys, and the letter of a key tells the kind of the unit.
So the code that counts one kind can be told from the code that counts another, and taken out of the tree by
itself. What is left is the view of the tree through the kinds that are kept.
-/

namespace Coverage.Syntax

def everyKind : Kind → Bool := fun _ ↦ true

/-- Whether an injected call counts a kind that is not kept. The keys of a call are of one kind. -/
def drops (kept : Kind → Bool) (call : Node) : Bool :=
  (((readCall? call).bind (·.keys.head?)).bind kindOf?).any (!kept ·)

mutual
/-- The tree without the injected code that counts other kinds than the kept ones. Injected nodes are those
whose identities start at `first`; of an expression that is counted before it is evaluated the expression is
left. The identities of the injected nodes that remain say nothing but when they were made, and all become
`first`. -/
def Node.view (first : NodeId) (kept : Kind → Bool) : Node → Node
  | .gap => .gap
  | .mk i c p fs =>
    let seen := .mk (min first i) c p (viewFields first kept fs)
    match decide (first ≤ i), c, fs with
    | true, .boolOp, [_, .many [call, e]] => if drops kept call then e.view first kept else seen
    | _, _, _ => seen

def Field.view (first : NodeId) (kept : Kind → Bool) : Field → Field
  | .child n => .child (n.view first kept)
  | .many ns => .many (viewNodes first kept ns)
  | f => f

def viewFields (first : NodeId) (kept : Kind → Bool) : List Field → List Field
  | [] => []
  | f :: fs => f.view first kept :: viewFields first kept fs

/-- What is seen of a node in a list: of counters and added cases that are not kept nothing, of a block whose
guard is not kept the block. -/
def Node.views (first : NodeId) (kept : Kind → Bool) : Node → List Node
  | .gap => [.gap]
  | .mk i c p fs =>
    let seen := [.mk (min first i) c p (viewFields first kept fs)]
    match decide (first ≤ i), c, fs with
    | true, .plain .exprStmt, [.child call] => if drops kept call then [] else seen
    | true, .matchCase, [_, _, .many [.mk _ _ _ [.child call]]] => if drops kept call then [] else seen
    | true, .plain .withStmt, [.many [.mk _ _ _ [.child call, _]], .many body, _] =>
      if drops kept call then viewNodes first kept body else seen
    | true, .boolOp, [_, .many [call, e]] => if drops kept call then [e.view first kept] else seen
    | _, _, _ => seen

def viewNodes (first : NodeId) (kept : Kind → Bool) : List Node → List Node
  | [] => []
  | n :: ns => n.views first kept ++ viewNodes first kept ns
end

variable {first : NodeId} {kept : Kind → Bool}

@[simp]
theorem viewFields_nil : viewFields first kept [] = [] := by rw [viewFields]

@[simp]
theorem viewFields_cons (f : Field) (fs : List Field) :
    viewFields first kept (f :: fs) = f.view first kept :: viewFields first kept fs := by rw [viewFields]

@[simp]
theorem Field.view_child (n : Node) : (Field.child n).view first kept = .child (n.view first kept) := by
  rw [Field.view]

@[simp]
theorem Field.view_many (ns : List Node) : (Field.many ns).view first kept = .many (viewNodes first kept ns) := by
  rw [Field.view]

@[simp]
theorem viewNodes_nil : viewNodes first kept [] = [] := by rw [viewNodes]

@[simp]
theorem viewNodes_cons (n : Node) (ns : List Node) :
    viewNodes first kept (n :: ns) = n.views first kept ++ viewNodes first kept ns := by rw [viewNodes]

@[simp]
theorem viewNodes_append (ns ms : List Node) :
    viewNodes first kept (ns ++ ms) = viewNodes first kept ns ++ viewNodes first kept ms := by
  induction ns with
  | nil => simp
  | cons n ns ih => simp [ih]

/-! ## Nodes that were there before -/

section Old

variable {i : NodeId} {c : NodeClass} {p : Place} {fs : List Field}

theorem Node.view_old (h : i < first) :
    (Node.mk i c p fs).view first kept = .mk i c p (viewFields first kept fs) := by
  have hi : decide (first ≤ i) = false := by simpa using h
  unfold Node.view
  rw [hi, Nat.min_eq_right (Nat.le_of_lt h)]

theorem Node.views_old (h : i < first) :
    (Node.mk i c p fs).views first kept = [.mk i c p (viewFields first kept fs)] := by
  have hi : decide (first ≤ i) = false := by simpa using h
  unfold Node.views
  rw [hi, Nat.min_eq_right (Nat.le_of_lt h)]

end Old

mutual
/-- A tree without injected nodes is seen as it is. -/
theorem Node.view_eq_self : ∀ n : Node, Before first n.ids → n.view first kept = n
  | .gap, _ => by rw [Node.view]
  | .mk i c p fs, h => by
    rw [Node.ids, before_cons] at h
    rw [Node.view_old h.1, viewFields_eq_self fs h.2]

theorem Field.view_eq_self : ∀ f : Field, Before first f.ids → f.view first kept = f
  | .child n, h => by
    rw [Field.ids_child] at h
    rw [Field.view, Node.view_eq_self n h]
  | .many ns, h => by
    rw [Field.ids_many] at h
    rw [Field.view, viewNodes_eq_self ns h]
  | .none, _ | .text _, _ | .number _, _ | .constant _, _ | .names _, _ => by rw [Field.view] <;> simp

theorem viewFields_eq_self : ∀ fs : List Field, Before first (fieldsIds fs) → viewFields first kept fs = fs
  | [], _ => by rw [viewFields]
  | f :: fs, h => by
    rw [fieldsIds_cons, before_append] at h
    rw [viewFields, Field.view_eq_self f h.1, viewFields_eq_self fs h.2]

theorem viewNodes_eq_self : ∀ ns : List Node, Before first (nodesIds ns) → viewNodes first kept ns = ns
  | [], _ => by rw [viewNodes]
  | .gap :: ns, h => by
    rw [nodesIds, before_append] at h
    rw [viewNodes, Node.views, viewNodes_eq_self ns h.2]
    rfl
  | .mk i c p fs :: ns, h => by
    rw [nodesIds, before_append, Node.ids, before_cons] at h
    rw [viewNodes, Node.views_old h.1.1, viewFields_eq_self fs h.1.2, viewNodes_eq_self ns h.2]
    rfl
end

/-! ## Nodes that are seen whatever is kept -/

section Seen

variable {i : NodeId} {c : NodeClass} {p : Place} {fs : List Field}

theorem Node.view_of_ne (h : c ≠ .boolOp) :
    (Node.mk i c p fs).view first kept = .mk (min first i) c p (viewFields first kept fs) := by
  unfold Node.view
  split
  next => exact absurd rfl h
  next => rfl

/-- Most nodes are seen as they are, with what is seen of their fields. -/
theorem Node.views_of_ne (hbool : c ≠ .boolOp) (hcase : c ≠ .matchCase) (hcounter : c ≠ .plain .exprStmt)
    (hguard : c ≠ .plain .withStmt) :
    (Node.mk i c p fs).views first kept = [.mk (min first i) c p (viewFields first kept fs)] := by
  unfold Node.views
  split
  next => exact absurd rfl hcounter
  next => exact absurd rfl hcase
  next => exact absurd rfl hguard
  next => exact absurd rfl hbool
  next => rfl

/-- Of a counted expression there is always something to see. -/
theorem Node.views_boolOp :
    (Node.mk i .boolOp p fs).views first kept = [(Node.mk i .boolOp p fs).view first kept] := by
  unfold Node.views
  rw [Node.view.eq_def]
  split
  next heq => cases heq
  next heq => cases heq
  next heq => cases heq
  next hi _ =>
    simp only [hi]
    split <;> rfl
  next hother => simp only

end Seen

theorem Place.fill_fill (p outer : Place) : p.fill (p.fill outer) = p.fill outer := by
  obtain ⟨_ | _, _ | _, _ | _, _ | _⟩ := p <;> rfl

end Coverage.Syntax

namespace Coverage.Probe

open Syntax

variable {plan : Plan} {outer place : Place} {first j j' : NodeId} {kept kept' : Kind → Bool}

/-! ## Injected code below a place -/

theorem fillNodes_arguments (i : NodeId) (ss : List String) :
    fillNodes outer (arguments place i ss) = arguments (place.fill outer) i ss := by
  induction ss generalizing i with
  | nil => simp [arguments]
  | cons s ss ih =>
    have hplace : (NodeClass.plain .constant).ownPlace place outer = place.fill outer := rfl
    simp [arguments, stringConstant, ih, hplace]

theorem fillPlaces_call (method : String) (keys : List Key) :
    (call plan method keys place j).fillPlaces outer = call plan method keys (place.fill outer) j := by
  have hcall : (NodeClass.plain .call).ownPlace place outer = place.fill outer := rfl
  have hinner : (NodeClass.plain .call).innerPlace place outer = place.fill outer := rfl
  have hattr (o : Place) : (NodeClass.plain .attr).ownPlace place o = place.fill o := rfl
  have hattrInner (o : Place) : (NodeClass.plain .attr).innerPlace place o = place.fill o := rfl
  have hname (o : Place) : (NodeClass.plain .name).ownPlace place o = place.fill o := rfl
  have hload (o : Place) : (NodeClass.plain .load).ownPlace {} o = {} := rfl
  simp [call, load, fillNodes_arguments, Place.fill_fill, hcall, hinner, hattr, hattrInner, hname, hload]

/-! ## What a call counts -/

theorem readCall?_call (method : String) (keys : List Key) :
    readCall? (call plan method keys place j) = some ⟨plan.globalName, method, plan.filename, keys⟩ := by
  have hargs : ∀ (i : NodeId) (ss : List String), (arguments place i ss).mapM stringOf? = some ss := by
    intro i ss
    induction ss generalizing i with
    | nil => rfl
    | cons s ss ih => simp [arguments, stringConstant, stringOf?, ih]
  simp [call, readCall?, hargs]

theorem drops_call {kind : Kind} {key : Key} (hkey : kindOf? key = some kind) (method : String) (keys : List Key) :
    drops kept (call plan method (key :: keys) place j) = !kept kind := by
  simp [drops, readCall?_call, hkey]

section Fresh

variable (fresh : first ≤ j) (fresh' : first ≤ j')

include fresh fresh'

theorem viewNodes_arguments (ss : List String) :
    viewNodes first kept (arguments place j ss) = viewNodes first kept' (arguments place j' ss) := by
  induction ss generalizing j j' with
  | nil => simp [arguments]
  | cons s ss ih =>
    have hconstant (k : Kind → Bool) (i : NodeId) (hi : first ≤ i) :
        (stringConstant i place s).views first k = [stringConstant first place s] := by
      rw [stringConstant, Node.views_of_ne (by simp) (by simp) (by simp) (by simp), Nat.min_eq_left hi]
      simp [stringConstant, Field.view]
    have hrest := ih (Nat.le_succ_of_le fresh) (Nat.le_succ_of_le fresh')
    rw [arguments, arguments, viewNodes_cons, viewNodes_cons, hconstant kept j fresh, hconstant kept' j' fresh', hrest]

theorem view_call (method : String) (keys : List Key) :
    (call plan method keys place j).view first kept = (call plan method keys place j').view first kept' := by
  have hargs : viewNodes first kept (arguments place (j + 5) (plan.filename :: keys)) =
      viewNodes first kept' (arguments place (j' + 5) (plan.filename :: keys)) :=
    viewNodes_arguments (Nat.le_add_right_of_le fresh) (Nat.le_add_right_of_le fresh') _
  have hmin (k : Nat) : min first (j + k) = first := Nat.min_eq_left (Nat.le_add_right_of_le fresh)
  have hmin' (k : Nat) : min first (j' + k) = first := Nat.min_eq_left (Nat.le_add_right_of_le fresh')
  simp [call, load, Node.view_of_ne, Field.view, hargs, hmin, hmin', Nat.min_eq_left fresh,
    Nat.min_eq_left fresh']

end Fresh

theorem views_call (method : String) (keys : List Key) :
    (call plan method keys place j).views first kept = [(call plan method keys place j).view first kept] := by
  rw [call, Node.views_of_ne (by simp) (by simp) (by simp) (by simp), Node.view_of_ne (by simp)]

/-! ## Probes -/

theorem fillPlaces_counter (key : Key) :
    (counter plan key place j).fillPlaces outer = counter plan key (place.fill outer) j := by
  have hown : (NodeClass.plain .exprStmt).ownPlace place outer = place.fill outer := rfl
  have hinner : (NodeClass.plain .exprStmt).innerPlace place outer = place.fill outer := rfl
  simp [counter, fillPlaces_call, Place.fill_fill, hown, hinner]

theorem fillPlaces_fallback (key : Key) :
    (fallback plan key place j).fillPlaces outer = fallback plan key (place.fill outer) j := by
  have hown : NodeClass.matchCase.ownPlace {} outer = {} := rfl
  have hinner : NodeClass.matchCase.innerPlace {} outer = outer := rfl
  have hpattern : (NodeClass.plain .matchAs).ownPlace place outer = place.fill outer := rfl
  simp [fallback, fillPlaces_counter, hown, hinner, hpattern]

theorem fillPlaces_guard (ok error : Key) (body : List Node) :
    (guard plan ok error place body j).fillPlaces outer =
      guard plan ok error (place.fill outer) (fillNodes (place.fill outer) body) j := by
  have hown : (NodeClass.plain .withStmt).ownPlace place outer = place.fill outer := rfl
  have hinner : (NodeClass.plain .withStmt).innerPlace place outer = place.fill outer := rfl
  have hitem (o : Place) : (NodeClass.plain .withItem).ownPlace {} o = {} := rfl
  have hitemInner (o : Place) : (NodeClass.plain .withItem).innerPlace {} o = o := rfl
  simp [guard, fillPlaces_call, Place.fill_fill, hown, hinner, hitem, hitemInner]

/-- The expression takes numbers from the place that the wrapper has got. -/
theorem fillPlaces_wrapper (key : Key) (e : Node) :
    (wrapper plan key e j).fillPlaces outer =
      .mk j .boolOp (e.place.fill outer) [.child (.mk (j + 1) (.plain .or) {} []),
        .many [call plan "hit" [key] (e.place.fill outer) (j + 2), e.fillPlaces (e.place.fill outer)]] := by
  have hown : NodeClass.boolOp.ownPlace e.place outer = e.place.fill outer := rfl
  have hinner : NodeClass.boolOp.innerPlace e.place outer = e.place.fill outer := rfl
  have hop (o : Place) : (NodeClass.plain .or).ownPlace {} o = {} := rfl
  simp [wrapper, fillPlaces_call, Place.fill_fill, hown, hinner, hop]

theorem views_wrapper (key : Key) (e : Node) : ((wrapper plan key e j).fillPlaces outer).views first kept =
    [((wrapper plan key e j).fillPlaces outer).view first kept] := by
  rw [fillPlaces_wrapper, Node.views_boolOp]

section Dropped

variable {kind : Kind} {key : Key} (fresh : first ≤ j) (hkey : kindOf? key = some kind) (hkind : kept kind = false)

include fresh hkey hkind

theorem views_counter_dropped : (counter plan key place j).views first kept = [] := by
  have hj : decide (first ≤ j) = true := by simpa using fresh
  unfold counter Node.views
  simp only [hj, drops_call hkey, hkind, Bool.not_false, if_true]

theorem views_fallback_dropped : (fallback plan key place j).views first kept = [] := by
  have hj : decide (first ≤ j) = true := by simpa using fresh
  unfold fallback counter Node.views
  simp only [hj, drops_call hkey, hkind, Bool.not_false, if_true]

theorem views_guard_dropped (error : Key) (body : List Node) :
    (guard plan key error place body j).views first kept = viewNodes first kept body := by
  have hj : decide (first ≤ j) = true := by simpa using fresh
  unfold guard Node.views
  simp only [hj, drops_call hkey, hkind, Bool.not_false, if_true]

theorem view_wrapper_dropped (e : Node) : ((wrapper plan key e j).fillPlaces outer).view first kept =
    (e.fillPlaces (e.place.fill outer)).view first kept := by
  have hj : decide (first ≤ j) = true := by simpa using fresh
  rw [fillPlaces_wrapper, Node.view.eq_def]
  simp only [hj, drops_call hkey, hkind, Bool.not_false, if_true]

end Dropped

section Kept

variable {kind : Kind} {key : Key} (fresh : first ≤ j) (fresh' : first ≤ j') (hkey : kindOf? key = some kind)
  (hkind : kept kind = true) (hkind' : kept' kind = true)

include fresh fresh' hkey hkind hkind'

theorem views_counter_kept :
    (counter plan key place j).views first kept = (counter plan key place j').views first kept' := by
  have hj : decide (first ≤ j) = true := by simpa using fresh
  have hj' : decide (first ≤ j') = true := by simpa using fresh'
  have hcall : (call plan "hit" [key] place (j + 1)).view first kept =
      (call plan "hit" [key] place (j' + 1)).view first kept' :=
    view_call (Nat.le_succ_of_le fresh) (Nat.le_succ_of_le fresh') "hit" [key]
  unfold counter Node.views
  simp only [hj, hj', drops_call hkey, hkind, hkind', Bool.not_true, Bool.false_eq_true, if_false,
    Nat.min_eq_left fresh, Nat.min_eq_left fresh', viewFields_cons, Field.view_child, hcall, viewFields_nil]

theorem views_fallback_kept :
    (fallback plan key place j).views first kept = (fallback plan key place j').views first kept' := by
  have hj : decide (first ≤ j) = true := by simpa using fresh
  have hj' : decide (first ≤ j') = true := by simpa using fresh'
  have hcounter : (counter plan key place (j + 2)).views first kept =
      (counter plan key place (j' + 2)).views first kept' :=
    views_counter_kept (Nat.le_add_right_of_le fresh) (Nat.le_add_right_of_le fresh') hkey hkind hkind'
  have hpattern (k : Kind → Bool) (i : NodeId) (hi : first ≤ i) :
      (Node.mk (i + 1) (.plain .matchAs) place [.none, .none]).view first k =
        .mk first (.plain .matchAs) place [.none, .none] := by
    rw [Node.view_of_ne (by simp), Nat.min_eq_left (Nat.le_succ_of_le hi)]
    simp [Field.view]
  unfold fallback
  rw [Node.views.eq_def, Node.views.eq_def]
  rw [counter, counter] at *
  simp only [hj, hj', drops_call hkey, hkind, hkind', Bool.not_true, Bool.false_eq_true, if_false,
    Nat.min_eq_left fresh, Nat.min_eq_left fresh', viewFields_cons, hpattern _ _ fresh,
    hpattern _ _ fresh', viewNodes_cons, hcounter, viewNodes_nil, viewFields_nil, Field.view]

/-- A guard looks the same whichever identities its nodes have. -/
theorem views_guard_kept (error : Key) {body body' : List Node}
    (hbody : viewNodes first kept body = viewNodes first kept' body') :
    (guard plan key error place body j).views first kept = (guard plan key error place body' j').views first kept' := by
  have hj : decide (first ≤ j) = true := by simpa using fresh
  have hj' : decide (first ≤ j') = true := by simpa using fresh'
  have hcall : (call plan "guard" [key, error] place (j + 2)).view first kept =
      (call plan "guard" [key, error] place (j' + 2)).view first kept' :=
    view_call (Nat.le_add_right_of_le fresh) (Nat.le_add_right_of_le fresh') "guard" [key, error]
  have hitem : (Node.mk (j + 1) (.plain .withItem) {}
      [.child (call plan "guard" [key, error] place (j + 2)), .none]).views first kept =
      (Node.mk (j' + 1) (.plain .withItem) {}
      [.child (call plan "guard" [key, error] place (j' + 2)), .none]).views first kept' := by
    rw [Node.views_of_ne (by simp) (by simp) (by simp) (by simp),
      Node.views_of_ne (by simp) (by simp) (by simp) (by simp), Nat.min_eq_left (Nat.le_succ_of_le fresh),
      Nat.min_eq_left (Nat.le_succ_of_le fresh')]
    simp [hcall, Field.view]
  unfold guard
  rw [Node.views.eq_def, Node.views.eq_def]
  simp only [hj, hj', drops_call hkey, hkind, hkind', Bool.not_true, Bool.false_eq_true, if_false,
    Nat.min_eq_left fresh, Nat.min_eq_left fresh', viewFields_cons, viewNodes_cons, hitem,
    viewNodes_nil, hbody, viewFields_nil, Field.view]

/-- A wrapper looks the same whichever identities its nodes have. -/
theorem view_wrapper_kept {e e' : Node} (hplace : e.place = e'.place)
    (he : (e.fillPlaces (e.place.fill outer)).views first kept =
      (e'.fillPlaces (e.place.fill outer)).views first kept') :
    ((wrapper plan key e j).fillPlaces outer).view first kept =
      ((wrapper plan key e' j').fillPlaces outer).view first kept' := by
  have hj : decide (first ≤ j) = true := by simpa using fresh
  have hj' : decide (first ≤ j') = true := by simpa using fresh'
  have hcall : (call plan "hit" [key] (e.place.fill outer) (j + 2)).view first kept =
      (call plan "hit" [key] (e.place.fill outer) (j' + 2)).view first kept' :=
    view_call (Nat.le_add_right_of_le fresh) (Nat.le_add_right_of_le fresh') "hit" [key]
  have hop (k : Kind → Bool) (i : NodeId) (hi : first ≤ i) :
      (Node.mk (i + 1) (.plain .or) {} []).view first k = .mk first (.plain .or) {} [] := by
    rw [Node.view_of_ne (by simp), Nat.min_eq_left (Nat.le_succ_of_le hi), viewFields_nil]
  rw [fillPlaces_wrapper, fillPlaces_wrapper, ← hplace, Node.view.eq_def, Node.view.eq_def]
  simp only [hj, hj', drops_call hkey, hkind, hkind', Bool.not_true, Bool.false_eq_true, if_false,
    Nat.min_eq_left fresh, Nat.min_eq_left fresh', viewFields_cons, Field.view_child, hop _ _ fresh, hop _ _ fresh',
    Field.view_many, viewNodes_cons, views_call, hcall, he, viewNodes_nil, viewFields_nil]

end Kept

end Coverage.Probe
