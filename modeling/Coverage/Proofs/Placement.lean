import Coverage.Proofs.Nesting.Nested
import Coverage.Proofs.Placement.Labels

/-!
# Where counters stand

Each entry of the record of a pass has its counter at the place that the entry names: in front of the statement,
behind the docstring of the function, first in the block of the clause, left of the expression in an `or`, or around the
whole body of the `try`. Insertions that come later do not move a counter away from what it counts.

What a pass puts into a tree is told apart from what was there by identities, which start at `first`. Taking it out
leaves the statements, expressions and blocks of the original, so they are recognised in the result by what is left.
-/

namespace Coverage.Syntax

open Pass

/-! ## Complete places -/

section Placed

theorem Place.eq_of_filled {p p' : Place} (h : p.Filled p') (hp : p.span?.isSome = true) : p' = p := by
  obtain ⟨line, column, endLine, endColumn⟩ := p
  unfold Place.span? at hp
  split at hp
  next l c el ec heq =>
    cases heq
    obtain ⟨line', column', endLine', endColumn'⟩ := p'
    obtain rfl : line' = some l := h.line l rfl
    obtain rfl : column' = some c := h.column c rfl
    obtain rfl : endLine' = some el := h.endLine el rfl
    obtain rfl : endColumn' = some ec := h.endColumn ec rfl
    rfl
  next => cases hp

mutual
/-- If no place is missing, there is nothing to fill in. -/
theorem Node.Filled.eq_of_placed {n n' : Node} : n.Filled n' → n.placed = true → n' = n
  | .gap, _ => rfl
  | @Node.Filled.mk i c p p' fs fs' place bare fields, h => by
    obtain ⟨hp, hfs⟩ := placed_mk.1 h
    have hplace : p' = p := by
      cases hc : c.role.placeable with
      | true => exact Place.eq_of_filled place (hp hc)
      | false => exact bare hc
    rw [hplace, fields.eq_of_placed hfs]

theorem Field.Filled.eq_of_placed {f f' : Field} : f.Filled f' → f.placed = true → f' = f
  | .child hn, h => by rw [hn.eq_of_placed (placed_child ▸ h)]
  | .many hns, h => by rw [hns.eq_of_placed (placed_many ▸ h)]
  | .atom _, _ => rfl

theorem FieldsFilled.eq_of_placed {fs fs' : List Field} : FieldsFilled fs fs' → fieldsPlaced fs = true → fs' = fs
  | .nil, _ => rfl
  | .cons hf hfs, h => by
    rw [fieldsPlaced_cons] at h
    rw [hf.eq_of_placed h.1, hfs.eq_of_placed h.2]

theorem NodesFilled.eq_of_placed {ns ns' : List Node} : NodesFilled ns ns' → nodesPlaced ns = true → ns' = ns
  | .nil, _ => rfl
  | .cons hn hns, h => by
    rw [nodesPlaced_cons] at h
    rw [hn.eq_of_placed h.1, hns.eq_of_placed h.2]
end

end Placed

end Coverage.Syntax

namespace Coverage.Pass

open Syntax Program

/-! ## What is put in -/

section Definitions

variable (plan : Plan) (first : NodeId)

/-- A call of the counters that was put in. -/
inductive IsCall (method : String) (keys : List Key) : Node → Prop
  | intro {j p fs} (fresh : first ≤ j)
    (reads : readCall? (.mk j (.plain .call) p fs) = some ⟨plan.globalName, method, plan.filename, keys⟩) :
    IsCall method keys (.mk j (.plain .call) p fs)

/-- A statement that counts the key and does nothing else. -/
inductive IsCounter (key : Key) : Node → Prop
  | intro {j p call} (fresh : first ≤ j) (hcall : IsCall plan first "hit" [key] call) :
    IsCounter key (.mk j (.plain .exprStmt) p [.child call])

/-- An `or` that counts the key on its left and has the expression on its right. -/
inductive IsWrapper (key : Key) (x : Node) : Node → Prop
  | intro {j p k q call} (fresh : first ≤ j) (hcall : IsCall plan first "hit" [key] call) :
    IsWrapper key x (.mk j .boolOp p [.child (.mk k (.plain .or) q []), .many [call, x]])

/-- A `with` around the block, whose only item gets both keys. -/
inductive IsGuard (ok error : Key) (body : List Node) : Node → Prop
  | intro {j p k q call} (fresh : first ≤ j) (hcall : IsCall plan first "guard" [ok, error] call) :
    IsGuard ok error body
      (.mk j (.plain .withStmt) p [.many [.mk k (.plain .withItem) q [.child call, .none]], .many body, .none])

/-- The second node is the first, with what was put in below it. -/
structure IsWoven (n n' : Node) : Prop where
  id : n'.id? = n.id?
  erase : n'.erase first = n

end Definitions

/-- The range of a node. A node that can carry a place has one. -/
structure HasRange (n : Node) (span : Span) : Prop where
  eq : spanOf n = span
  located : n.placeable = true → locate n = .ok span

def functionBody? : Node → Option (List Node)
  | .mk _ (.functionDef _) _ [.text _, .child _, .many body, .many _, _, _] => some body
  | _ => none

def lambdaBody? : Node → Option Node
  | .mk _ .lambda _ [.child _, .child body] => some body
  | _ => none

def docstringLength (body : List Node) : Nat := if startsWithDocstring body then 1 else 0

/-- The counter of an entry stands in the second tree at the place that the entry names in the first. -/
inductive Stands (plan : Plan) (first : NodeId) (tree out : Node) (e : Entry Kind) : Prop
  /-- In front of the statement, in its block. -/
  | statement {o o' block block' s s' c} (kind : e.kind = .statement) (ho : o ∈ tree.nodes)
    (source : .many block ∈ o.fields) (hs : s ∈ block) (range : HasRange s e.span) (ho' : o' ∈ out.nodes)
    (target : .many block' ∈ o'.fields) (same : eraseNodes first block' = block) (woven : IsWoven first s s')
    (counter : IsCounter plan first e.key c) (front : [c, s'] <:+: block')
  /-- Behind the docstring of the function, if there is one, and in front of the rest of its body. -/
  | function {n n' body c rest} (kind : e.kind = .function) (hn : n ∈ tree.nodes) (range : HasRange n e.span)
    (hn' : n' ∈ out.nodes) (woven : IsWoven first n n') (source : functionBody? n = some body)
    (target : functionBody? n' = some (body.take (docstringLength body) ++ c :: rest))
    (counter : IsCounter plan first e.key c) (same : eraseNodes first rest = body.drop (docstringLength body))
  /-- Left of the body of the `lambda`. -/
  | lambda {n n' x x' w} (kind : e.kind = .function) (hn : n ∈ tree.nodes) (range : HasRange n e.span)
    (hn' : n' ∈ out.nodes) (woven : IsWoven first n n') (source : lambdaBody? n = some x)
    (target : lambdaBody? n' = some w) (wrapper : IsWrapper plan first e.key x' w) (expr : IsWoven first x x')
  /-- First in the block of an arm, and alone if there was no such block. -/
  | clause {n n' k c rest} (kind : e.kind = .branch) (hn : n ∈ tree.nodes) (range : armRange? n k = some e.span)
    (hn' : n' ∈ out.nodes) (woven : IsWoven first n n') (target : armBlock? n' k = some (c :: rest))
    (counter : IsCounter plan first e.key c) (same : eraseNodes first rest = (armBlock? n k).getD [])
    (alone : (armBlock? n k).getD [] = [] → rest = [])
  /-- Left of the expression of an arm. -/
  | operand {n n' k x x' w} (kind : e.kind = .branch) (hn : n ∈ tree.nodes) (source : armExpr? n k = some x)
    (range : HasRange x e.span) (hn' : n' ∈ out.nodes) (woven : IsWoven first n n') (target : armExpr? n' k = some w)
    (wrapper : IsWrapper plan first e.key x' w) (expr : IsWoven first x x')
  /-- In a guard around the whole body of the `try`, with the counter of the other arm. -/
  | guarded {i star p body handlers orelse finalbody g b h o f ok error} {k : Nat} (kind : e.kind = .branch)
    (hn : .mk i (.tryStmt star) p [.many body, .many handlers, .many orelse, .many finalbody] ∈ tree.nodes)
    (arms : tryArms body handlers finalbody = .ok [ok, error]) (range : [ok, error][k]? = some e.span)
    (hn' : .mk i (.tryStmt star) p [.many [g], .many h, .many o, .many f] ∈ out.nodes)
    (guard : IsGuard plan first (keyOf .branch ok) (keyOf .branch error) b g) (hbody : eraseNodes first b = body)
    (hhandlers : eraseNodes first h = handlers) (horelse : eraseNodes first o = orelse)
    (hfinalbody : eraseNodes first f = finalbody)

/-! ## Places of what is put in -/

section Filled

variable {plan : Plan} {marks : Marks} {first j : NodeId} {place : Place} (outer : Place)

theorem stringOf?_arguments (i : NodeId) (ss : List String) :
    (fillNodes outer (Probe.arguments place i ss)).mapM stringOf? = some ss := by
  induction ss generalizing i with
  | nil => rfl
  | cons s ss ih => simp [Probe.arguments, Probe.stringConstant, stringOf?, ih]

theorem isCall_fill (fresh : first ≤ j) (method : String) (keys : List Key) :
    IsCall plan first method keys ((Probe.call plan method keys place j).fillPlaces outer) := by
  rw [Probe.call, Node.fillPlaces_mk]
  refine .intro fresh ?_
  simp [readCall?, stringOf?_arguments]

theorem isCounter_fill (fresh : first ≤ j) (key : Key) :
    IsCounter plan first key ((Probe.counter plan key place j).fillPlaces outer) := by
  rw [Probe.counter, Node.fillPlaces_mk, fillFields_cons, fillFields_nil]
  exact .intro fresh (isCall_fill _ (Nat.le_succ_of_le fresh) _ _)

theorem isWrapper_fill (fresh : first ≤ j) (key : Key) (x : Node) :
    ∃ o, IsWrapper plan first key (x.fillPlaces o) ((Probe.wrapper plan key x j).fillPlaces outer) := by
  refine ⟨NodeClass.innerPlace .boolOp x.place outer, ?_⟩
  rw [Probe.wrapper, Node.fillPlaces_mk]
  simp only [fillFields_cons, fillFields_nil, Field.fillPlaces_child, Field.fillPlaces_many, fillNodes_cons,
    fillNodes_nil]
  rw [Node.fillPlaces_mk _ (.plain .or), fillFields_nil]
  exact .intro fresh (isCall_fill _ (Nat.le_add_right_of_le fresh) _ _)

/-- A guard is one after places are filled in. -/
theorem isGuard_fill (fresh : first ≤ j) (ok error : Key) (body : List Node) :
    ∃ o, IsGuard plan first ok error (fillNodes o body)
      ((Probe.guard plan ok error place body j).fillPlaces outer) := by
  refine ⟨NodeClass.innerPlace (.plain .withStmt) place outer, ?_⟩
  rw [Probe.guard, Node.fillPlaces_mk]
  simp only [fillFields_cons, fillFields_nil, Field.fillPlaces_none, Field.fillPlaces_many, fillNodes_cons,
    fillNodes_nil]
  rw [Node.fillPlaces_mk _ (.plain .withItem)]
  simp only [fillFields_cons, fillFields_nil, Field.fillPlaces_none, Field.fillPlaces_child]
  exact .intro fresh (isCall_fill _ (Nat.le_add_right_of_le fresh) _ _)

end Filled

/-! ## Parts of filled nodes -/

section Parts

variable {n m : Node} {k : Nat} (outer : Place)

theorem id?_fillPlaces (n : Node) : (n.fillPlaces outer).id? = n.id? := by
  cases n with
  | gap => rw [Node.fillPlaces_gap]
  | mk i c p fs =>
    rw [Node.fillPlaces_mk]
    rfl

theorem mem_nodes_fillPlaces (h : m ∈ n.nodes) : ∃ o, m.fillPlaces o ∈ (n.fillPlaces outer).nodes := by
  have hall := nodes_fillPlaces n outer
  generalize n.nodes = ns at h hall
  generalize (n.fillPlaces outer).nodes = ns' at hall
  induction hall with
  | nil => cases h
  | cons hn hns ih =>
    rcases List.mem_cons.1 h with rfl | h
    · obtain ⟨o, rfl⟩ := hn
      exact ⟨o, List.mem_cons_self⟩
    · obtain ⟨o, ho⟩ := ih h
      exact ⟨o, List.mem_cons_of_mem _ ho⟩

theorem many_mem_fillPlaces {ns : List Node} (h : .many ns ∈ n.fields) :
    ∃ o, .many (fillNodes o ns) ∈ (n.fillPlaces outer).fields := by
  cases n with
  | gap => cases h
  | mk i c p fs =>
    rw [Node.fillPlaces_mk]
    refine ⟨c.innerPlace p outer, ?_⟩
    change _ ∈ fillFields _ fs
    rw [fillFields_eq_map]
    exact List.mem_map.2 ⟨_, h, rfl⟩

theorem caseBody?_fillPlaces {body : List Node} (h : caseBody? n = some body) :
    ∃ o, caseBody? (n.fillPlaces outer) = some (fillNodes o body) := by
  unfold caseBody? at h
  split at h
  next =>
    cases h
    simp only [Node.fillPlaces_mk, fillFields_cons, fillFields_nil, Field.fillPlaces_many]
    exact ⟨_, rfl⟩
  next => cases h

/-- The block of an arm, after places are filled in. -/
theorem armBlock?_fillPlaces {block : List Node} (h : armBlock? n k = some block) :
    ∃ o, armBlock? (n.fillPlaces outer) k = some (fillNodes o block) := by
  unfold armBlock? at h
  split at h
  case h_7 i p subject cases =>
    obtain ⟨c, hc, hbody⟩ := Option.bind_eq_some_iff.1 h
    obtain ⟨o, ho⟩ := caseBody?_fillPlaces (NodeClass.innerPlace .matchStmt p outer) hbody
    refine ⟨o, ?_⟩
    simp only [Node.fillPlaces_mk, fillFields_cons, fillFields_nil, Field.fillPlaces_child, Field.fillPlaces_many]
    change (fillNodes _ cases)[k]? >>= caseBody? = _
    rw [fillNodes_eq_map, List.getElem?_map, hc]
    exact ho
  case h_8 => cases h
  all_goals
    cases h
    simp only [Node.fillPlaces_mk, fillFields_cons, fillFields_nil, Field.fillPlaces_child, Field.fillPlaces_many]
    exact ⟨_, rfl⟩

theorem armExpr?_fillPlaces {x : Node} (h : armExpr? n k = some x) :
    ∃ o, armExpr? (n.fillPlaces outer) k = some (x.fillPlaces o) := by
  unfold armExpr? at h
  split at h
  case h_3 i p op values =>
    simp only [Node.fillPlaces_mk, fillFields_cons, fillFields_nil, Field.fillPlaces_many]
    refine ⟨NodeClass.innerPlace .boolOp p outer, ?_⟩
    change (fillNodes _ values)[k]? = _
    rw [fillNodes_eq_map, List.getElem?_map, h]
    rfl
  case h_4 => cases h
  all_goals
    cases h
    simp only [Node.fillPlaces_mk, fillFields_cons, fillFields_nil, Field.fillPlaces_child]
    exact ⟨_, rfl⟩

theorem functionBody?_fillPlaces {body : List Node} (h : functionBody? n = some body) :
    ∃ o, functionBody? (n.fillPlaces outer) = some (fillNodes o body) := by
  unfold functionBody? at h
  split at h
  next =>
    cases h
    simp only [Node.fillPlaces_mk, fillFields_cons, fillFields_nil, Field.fillPlaces_text, Field.fillPlaces_child,
      Field.fillPlaces_many]
    exact ⟨_, rfl⟩
  next => cases h

theorem lambdaBody?_fillPlaces {x : Node} (h : lambdaBody? n = some x) :
    ∃ o, lambdaBody? (n.fillPlaces outer) = some (x.fillPlaces o) := by
  unfold lambdaBody? at h
  split at h
  next =>
    cases h
    simp only [Node.fillPlaces_mk, fillFields_cons, fillFields_nil, Field.fillPlaces_child]
    exact ⟨_, rfl⟩
  next => cases h

end Parts

/-! ## Parts of the original -/

/-- Nothing is put into the node yet, and no place is missing in it. -/
structure Original (first : NodeId) (n : Node) : Prop where
  placed : n.placed = true
  before : Before first n.ids

section Original

variable {plan : Plan} {marks : Marks} {first : NodeId} {n n' m : Node} {k : Nat} {t : List Tag}
  {b b' block : List Node}

/-- The block of an arm is made of nodes below its statement. -/
theorem mem_nodes_of_armBlock? {block : List Node} (h : armBlock? n k = some block) :
    ∀ m ∈ block, m ∈ n.children ∨ ∃ c ∈ n.children, m ∈ c.children := by
  unfold armBlock? at h
  split at h
  case h_7 i p subject cases =>
    obtain ⟨c, hc, hbody⟩ := Option.bind_eq_some_iff.1 h
    intro m hm
    refine .inr ⟨c, many_subset_children (by simp) (List.mem_of_getElem? hc), ?_⟩
    unfold caseBody? at hbody
    split at hbody
    next =>
      cases hbody
      exact many_subset_children (by simp) hm
    next => cases hbody
  case h_8 => cases h
  all_goals
    cases h
    exact fun m hm ↦ .inl (many_subset_children (by simp) hm)

theorem mem_children_of_armExpr? {x : Node} (h : armExpr? n k = some x) : x ∈ n.children := by
  unfold armExpr? at h
  split at h
  case h_3 => exact many_subset_children (by simp) (List.mem_of_getElem? h)
  case h_4 => cases h
  all_goals
    cases h
    exact child_mem_children (by simp)

/-- The range of an arm of an expression is that of the expression it leads to. -/
theorem armRange?_of_expr {x : Node} (h : armExpr? n k = some x) : armRange? n k = some (spanOf x) := by
  unfold armExpr? at h
  split at h
  case h_3 => exact congrArg (Option.map spanOf) h
  case h_4 => cases h
  all_goals
    cases h
    rfl

theorem Original.child (h : Original first n) (hm : m ∈ n.children) : Original first m where
  placed := by
    cases n with
    | gap => cases hm
    | mk i c p fs => exact placed_of_mem_children (placed_mk.1 h.placed).2 hm
  before j hj := h.before j (mem_ids_of_child hm hj)

theorem Original.of_mem_nodes (h : Original first n) : ∀ m ∈ n.nodes, Original first m :=
  forall_nodes (fun _ _ hm hn ↦ hn.child hm) n h

theorem Original.many {ns : List Node} (h : Original first n) (hns : .many ns ∈ n.fields) :
    ∀ m ∈ ns, Original first m := by
  cases n with
  | gap => cases hns
  | mk i c p fs => exact fun m hm ↦ h.child (many_subset_children hns hm)

theorem Original.armBlock (h : Original first n) (hblock : armBlock? n k = some block) :
    ∀ m ∈ block, Original first m := by
  intro m hm
  rcases mem_nodes_of_armBlock? hblock m hm with hchild | ⟨c, hc, hchild⟩
  · exact h.child hchild
  · exact (h.child hc).child hchild

theorem Original.hasRange (h : Original first n) : HasRange n (spanOf n) where
  eq := rfl
  located hplace := by
    cases n with
    | gap => cases hplace
    | mk i c p fs =>
      obtain ⟨span, hspan⟩ := Option.isSome_iff_exists.1 ((placed_mk.1 h.placed).1 hplace)
      have hlocate : locate (.mk i c p fs) = .ok span := by simp [locate, hspan]
      rw [hlocate, spanOf_eq hlocate]

theorem Woven.isWoven (h : Woven plan marks first final n t n') (hn : Original first n) (o : Place) :
    IsWoven first n (n'.fillPlaces o) where
  id := (id?_fillPlaces o n').trans h.id?
  erase := by
    have hfilled := (n'.filled_fillPlaces o).erase first
    rw [h.erase hn.before] at hfilled
    exact hfilled.eq_of_placed hn.placed

/-- Taking out what was put into a block leaves the block. -/
theorem WovenBlock.erase_fillNodes {doc : Bool} (h : WovenBlock plan marks first final doc block t b)
    (hblock : ∀ m ∈ block, Original first m) (same : eraseNodes first b' = eraseNodes first b) (o : Place) :
    eraseNodes first (fillNodes o b') = block := by
  have hbefore : Before first (nodesIds block) := by
    rw [nodesIds_eq_flatMap]
    intro j hj
    obtain ⟨m, hm, hj⟩ := List.mem_flatMap.1 hj
    exact (hblock m hm).before j hj
  have hplaced : nodesPlaced block = true := by
    clear h hbefore same
    induction block with
    | nil => rfl
    | cons m block ih =>
      obtain ⟨hm, hblock⟩ := List.forall_mem_cons.1 hblock
      exact nodesPlaced_cons.2 ⟨hm.placed, ih hblock⟩
  have hfilled := (filled_fillNodes o b').erase first
  rw [same, h.erase hbefore] at hfilled
  exact hfilled.eq_of_placed hplaced

/-- The body of a function that is counted. -/
theorem Entered.counter {key : Key} (h : Entered plan first final (some key) (startsWithDocstring block) b b')
    (hb : WovenBlock plan marks first final true block t b) (hblock : ∀ m ∈ block, Original first m) (o : Place) :
    ∃ c rest, fillNodes o b' = block.take (docstringLength block) ++ c :: rest ∧ IsCounter plan first key c ∧
      eraseNodes first rest = block.drop (docstringLength block) := by
  cases hdoc : startsWithDocstring block with
  | false =>
    rw [hdoc] at h
    have hnone : docstringLength block = 0 := by simp [docstringLength, hdoc]
    rw [hnone]
    cases h with
    | front fresh =>
      exact ⟨_, _, fillNodes_cons .., isCounter_fill o fresh.le key, hb.erase_fillNodes hblock rfl o⟩
  | true =>
    obtain ⟨d, rest, t', rest', hd, rfl, rfl, -, hrest⟩ := hb.docstring hdoc
    rw [hdoc] at h
    have hone : docstringLength (d :: rest) = 1 := by simp [docstringLength, hdoc]
    obtain ⟨hd, hrest'⟩ := List.forall_mem_cons.1 hblock
    have hsame : d.fillPlaces o = d := fillPlaces_eq_self o d hd.placed
    rw [hone]
    cases h with
    | @behind _ _ s b j fresh =>
      refine ⟨(Probe.counter plan key s.place j).fillPlaces o, fillNodes o (s :: b), ?_, isCounter_fill o fresh.le key,
        hrest.erase_fillNodes hrest' rfl o⟩
      rw [fillNodes_cons, fillNodes_cons, hsame]
      rfl
    | @last _ _ j fresh =>
      refine ⟨(Probe.counter plan key d.place j).fillPlaces o, fillNodes o [], ?_, isCounter_fill o fresh.le key,
        hrest.erase_fillNodes hrest' rfl o⟩
      rw [fillNodes_cons, fillNodes_cons, hsame]
      rfl

/-- A clause that is counted. -/
theorem Counted.counter {key : Key} {place : Place} {doc : Bool} (h : Counted plan first final (some key) place b b')
    (hb : WovenBlock plan marks first final doc block t b) (hblock : ∀ m ∈ block, Original first m) (o : Place) :
    ∃ c rest, fillNodes o b' = c :: rest ∧ IsCounter plan first key c ∧ eraseNodes first rest = block ∧
      (block = [] → rest = []) := by
  cases h with
  | front fresh =>
    refine ⟨_, _, fillNodes_cons .., isCounter_fill o fresh.le key, hb.erase_fillNodes hblock rfl o, ?_⟩
    rintro rfl
    cases hb
    rw [fillNodes_nil]

/-- An expression that is counted. -/
theorem Wrapped.wrapper {key : Key} {x x' w : Node} (h : Wrapped plan first final (some key) x' w)
    (hx : Woven plan marks first final x t x') (horiginal : Original first x) (o : Place) :
    ∃ x'', IsWrapper plan first key x'' (w.fillPlaces o) ∧ IsWoven first x x'' := by
  cases h with
  | wrapped fresh =>
    obtain ⟨o', hwrapper⟩ := isWrapper_fill o fresh.le key x'
    exact ⟨_, hwrapper, hx.isWoven horiginal o'⟩

end Original

/-! ## Counters -/

section Told

variable {tree n : Node} {e : Entry Kind} {i : NodeId} (hids : tree.ids.Nodup) (hn : n ∈ tree.nodes)
  (id : n.id? = some i)

include hids hn id

theorem Told.of_started (h : Told tree.nodes e (.started i)) : e.kind = .statement ∧ spanOf n = e.span := by
  cases h with
  | started hs hid kind span => exact ⟨kind, eq_of_id? hids hs hn hid id ▸ span⟩

theorem Told.of_entered (h : Told tree.nodes e (.entered i)) : e.kind = .function ∧ spanOf n = e.span := by
  cases h with
  | entered hm hid kind span => exact ⟨kind, eq_of_id? hids hm hn hid id ▸ span⟩

theorem Told.of_took {k : Nat} (h : Told tree.nodes e (.took i k)) :
    e.kind = .branch ∧ armRange? n k = some e.span := by
  cases h with
  | took hm hid kind span => exact ⟨kind, eq_of_id? hids hm hn hid id ▸ span⟩

end Told

section Stands

variable {plan : Plan} {marks : Marks} {first : NodeId} {tree out : Node} {T : List Tag} {event : Event}
  {e : Entry Kind}

/-- The arms of a `try` whose ranges are known. -/
theorem tryArms_of_ranges {i : NodeId} {star : Bool} {p : Place} {body handlers orelse finalbody : List Node}
    {s₀ s₁ : Span}
    (h₀ : armRange? (.mk i (.tryStmt star) p [.many body, .many handlers, .many orelse, .many finalbody]) 0 = some s₀)
    (h₁ : armRange? (.mk i (.tryStmt star) p [.many body, .many handlers, .many orelse, .many finalbody]) 1 = some s₁) :
    tryArms body handlers finalbody = .ok [s₀, s₁] := by
  have h₀ : (spansOf (tryArms body handlers finalbody))[0]? = some s₀ := h₀
  have h₁ : (spansOf (tryArms body handlers finalbody))[1]? = some s₁ := h₁
  have hsome : spansOf (tryArms body handlers finalbody) ≠ [] := by
    intro hnil
    simp [hnil] at h₀
  have hok := spansOf_ne_nil hsome
  obtain ⟨a, b, hab⟩ := List.length_eq_two.1 (tryArms_ok hok).1
  rw [hab] at h₀ h₁ hok
  cases h₀
  cases h₁
  exact hok

/-- The counter of a statement. -/
theorem Front.stands {o o' : Node} {block block' b : List Node} {doc : Bool} {t : List Tag} (hids : tree.ids.Nodup)
    (htree : Original first tree) (ho : o ∈ tree.nodes) (source : .many block ∈ o.fields) (ho' : o' ∈ out.nodes)
    (target : .many block' ∈ o'.fields) (hb : WovenBlock plan marks first final doc block t b)
    (same : eraseNodes first block' = eraseNodes first b)
    (front : Front plan marks first final block block' event e.key)
    (told : Told tree.nodes e event) : Stands plan first tree (out.fillPlaces .start) e := by
  have hblock : ∀ m ∈ block, Original first m := (htree.of_mem_nodes o ho).many source
  obtain ⟨q, hq⟩ := mem_nodes_fillPlaces .start ho'
  obtain ⟨r, hr⟩ := many_mem_fillPlaces q target
  cases front with
  | @intro i c p fs t s' place j _ hs woven fresh front =>
    obtain ⟨kind, span⟩ := told.of_started hids (nodes_trans ho (mem_nodes_of_many source hs Node.mk_ne_gap)) rfl
    have hfront : [(Probe.counter plan e.key place j).fillPlaces r, s'.fillPlaces r] <:+: fillNodes r block' := by
      rw [fillNodes_eq_map]
      exact front.map (Node.fillPlaces r)
    exact .statement kind ho source hs (span ▸ (hblock _ hs).hasRange) hq hr (hb.erase_fillNodes hblock same r)
      (woven.isWoven (hblock _ hs) r) (isCounter_fill r fresh e.key) hfront

/-- The probe of an entry or an arm. -/
theorem Owns.stands {n n' : Node} {t : List Tag} (hids : tree.ids.Nodup) (htree : Original first tree)
    (hT : ∀ event key, .label event (some key) ∈ T →
      ∃ e : Entry Kind, key = keyOf e.kind e.span ∧ Told tree.nodes e event)
    (hn : n ∈ tree.nodes) (hn' : n' ∈ out.nodes) (woven : Woven plan marks first final n t n')
    (owns : Owns plan marks first final T n n' event e.key) (told : Told tree.nodes e event) :
    Stands plan first tree (out.fillPlaces .start) e := by
  have horiginal : Original first n := htree.of_mem_nodes n hn
  obtain ⟨q, hq⟩ := mem_nodes_fillPlaces .start hn'
  have hwoven : IsWoven first n (n'.fillPlaces q) := woven.isWoven horiginal q
  cases owns with
  | @entry i async p name args body decorators returns comment _ a b b' ds _ hb entry =>
    obtain ⟨kind, span⟩ := told.of_entered hids hn rfl
    have target : functionBody? (.mk i (.functionDef async) p
        [.text name, .child a, .many b', .many ds, returns, comment]) = some b' := rfl
    obtain ⟨r, target⟩ := functionBody?_fillPlaces q target
    obtain ⟨c, rest, hbody, counter, same⟩ := entry.counter hb (horiginal.many (by simp [Node.fields])) r
    exact .function kind hn (span ▸ horiginal.hasRange) hq hwoven rfl (hbody ▸ target) counter same
  | @lambda i p args body _ a b b' _ hb entry =>
    obtain ⟨kind, span⟩ := told.of_entered hids hn rfl
    have target : lambdaBody? (.mk i .lambda p [.child a, .child b']) = some b' := rfl
    obtain ⟨r, target⟩ := lambdaBody?_fillPlaces q target
    obtain ⟨x, wrapper, expr⟩ := entry.wrapper hb (horiginal.child (child_mem_children (by simp))) r
    exact .lambda kind hn (span ▸ horiginal.hasRange) hq hwoven rfl target wrapper expr
  | clause source target hb arm =>
    obtain ⟨kind, range⟩ := told.of_took hids hn rfl
    obtain ⟨r, target⟩ := armBlock?_fillPlaces q target
    obtain ⟨c, rest, hblock, counter, same, alone⟩ := arm.counter hb (horiginal.armBlock source) r
    refine .clause kind hn range hq hwoven (hblock ▸ target) counter ?_ ?_
    · rw [source, same]
      rfl
    · rw [source]
      exact alone
  | fallback source target fresh =>
    obtain ⟨kind, range⟩ := told.of_took hids hn rfl
    obtain ⟨r, target⟩ := armBlock?_fillPlaces q target
    rw [fillNodes_cons, fillNodes_nil] at target
    refine .clause kind hn range hq hwoven target (isCounter_fill r fresh e.key) ?_ fun _ ↦ rfl
    rw [source, eraseNodes]
    rfl
  | operand source target hx arm =>
    obtain ⟨kind, range⟩ := told.of_took hids hn rfl
    have hx' := horiginal.child (mem_children_of_armExpr? source)
    obtain ⟨r, target⟩ := armExpr?_fillPlaces q target
    obtain ⟨x, wrapper, expr⟩ := arm.wrapper hx hx' r
    have hspan : spanOf _ = e.span := Option.some.inj ((armRange?_of_expr source).symm.trans range)
    exact .operand kind hn source (hspan ▸ hx'.hasRange) hq hwoven target wrapper expr
  | @guarded i star p body handlers orelse finalbody _ b b' h o f ok error k _ hb arms normal raised arm =>
    obtain ⟨kind, range⟩ := told.of_took hids hn rfl
    obtain ⟨e₀, rfl, told₀⟩ := hT _ _ normal
    obtain ⟨e₁, rfl, told₁⟩ := hT _ _ raised
    obtain ⟨kind₀, range₀⟩ := told₀.of_took hids hn rfl
    obtain ⟨kind₁, range₁⟩ := told₁.of_took hids hn rfl
    have harms : tryArms body handlers finalbody = .ok [e₀.span, e₁.span] := tryArms_of_ranges range₀ range₁
    have hspan : [e₀.span, e₁.span][k]? = some e.span := by
      have hrange : (spansOf (tryArms body handlers finalbody))[k]? = some e.span := range
      rwa [harms, spansOf_ok] at hrange
    rw [kind₀, kind₁] at arms
    cases arms with
    | @guarded _ _ s b j fresh =>
      have herase := hwoven.erase
      rw [Node.fillPlaces_mk] at hq herase
      rw [Node.erase_old (horiginal.before i List.mem_cons_self)] at herase
      simp only [fillFields_cons, fillFields_nil, Field.fillPlaces_many, fillNodes_cons, fillNodes_nil] at hq herase
      simp only [eraseFields, Field.erase, Node.mk.injEq, List.cons.injEq, Field.many.injEq, true_and, and_true]
        at herase
      obtain ⟨hplace, -, hhandlers, horelse, hfinalbody⟩ := herase
      rw [hplace] at hq
      obtain ⟨r, guard⟩ := isGuard_fill _ fresh.le _ _ (s :: b)
      exact .guarded kind hn harms hspan hq guard (hb.erase_fillNodes (horiginal.many (by simp [Node.fields])) rfl r)
        hhandlers horelse hfinalbody

end Stands

/-! ## Whole passes -/

/-- The keys of a tidy record belong to one entry each. -/
theorem eq_of_key {m : Metadata Kind} (hm : m.Tidy) {e e' : Entry Kind} (he : e ∈ m.entries) (he' : e' ∈ m.entries)
    (hkey : e.key = e'.key) : e = e' :=
  List.inj_on_of_nodup_map hm.nodup he he' hkey

/-- In the result of a pass over a tree without missing places, each entry of the record has one counter, and it stands
where the entry says. Only an arm of a `try` whose other arm was refused has none. -/
theorem stands_instrument {plan : Plan} {marks : Marks} {next : NodeId} {tree : Node} {i : Instrumented}
    (htree : Identified next tree) (hplaced : tree.placed = true) (h : instrument plan marks next tree = .ok i) :
    ∀ e ∈ i.record.entries, ¬i.record.Lone e → e.key = keyOf e.kind e.span ∧
      (countedKeys (i.tree.calls next)).count e.key = 1 ∧ Stands plan next tree i.tree e := by
  intro e he hlone
  have hcorresponds := corresponds_instrument htree h
  have hcount : (countedKeys (i.tree.calls next)).count e.key = 1 :=
    List.count_eq_one_of_mem hcorresponds.distinct ((hcorresponds.counted e he).2 hlone)
  obtain ⟨n, hwoven, hout, hrecord, -⟩ := instrument_spec htree h
  rw [hrecord] at he hlone
  obtain ⟨event, hlabel⟩ := exists_label_of_entry he hlone
  obtain ⟨e', he', hsame, hkey, told⟩ := exists_entry_of_label hlabel
  obtain rfl : e' = e := eq_of_key (enrols_roster plan marks tree).tidy he' he hsame
  refine ⟨hkey, hcount, ?_⟩
  have horiginal : Original next tree := ⟨hplaced, htree.below⟩
  rw [hout]
  cases hwoven.tracks event e'.key hlabel with
  | started ho source ho' target hb same front =>
    exact front.stands htree.nodup horiginal ho source ho' target hb same told
  | node hn hn' woven owns =>
    refine owns.stands htree.nodup horiginal (fun event key hlabel ↦ ?_) hn hn' woven told
    obtain ⟨e, -, rfl, hkey, told⟩ := exists_entry_of_label hlabel
    exact ⟨e, hkey, told⟩

instance (m : Metadata Kind) (e : Entry Kind) : Decidable (m.Lone e) :=
  inferInstanceAs (Decidable (∃ g ∈ m.groups, g.construct = .tryBody ∧ g.arms = 2 ∧ e.group = some g.id ∧
    ∀ e' ∈ m.entries, e'.group = some g.id → e' = e))

/-- A module with counters of all kinds. -/
theorem stands_instrument_sampleModule :
    ∃ i, instrument { filename := "m.py" } {} 11 sampleModule = .ok i ∧ i.record.entries.length = 10 ∧
      ∀ e ∈ i.record.entries, Stands { filename := "m.py" } 11 sampleModule i.tree e := by
  have hok : (instrument { filename := "m.py" } {} 11 sampleModule).toOption.map
      (fun i ↦ (i.record.entries.length, i.record.entries.any (i.record.Lone ·))) = some (10, false) := by
    decide +kernel
  obtain ⟨i, h, hok⟩ := exists_ok_of_map hok
  obtain ⟨hlength, hnone⟩ := Prod.mk.inj hok
  refine ⟨i, h, hlength, fun e he ↦ ?_⟩
  have hlone : ¬i.record.Lone e := by simpa using List.any_eq_false.1 hnone e he
  exact (stands_instrument ⟨by decide, by decide⟩ (by decide) h e he hlone).2.2

end Coverage.Pass
