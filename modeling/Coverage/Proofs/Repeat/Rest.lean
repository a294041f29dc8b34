import Coverage.Proofs.Pass.Walk
import Coverage.Proofs.Syntax.Placed

/-!
# Trees in which there is nothing left to do

A block is settled if a pass would pass over each of its statements, and a node rests if a pass would find
nothing to count in it. A pass over a resting tree in which no place is missing gives the tree back and counts
nothing. Filling in missing numbers of places keeps a block settled and a node resting, since a statement
that has a line keeps it.
-/

namespace Coverage.Pass

open Syntax

/-! ## Settled blocks and resting nodes -/

/-- Whether a pass would pass over all statements of a block. Only its first one can be a docstring. -/
def settled (plan : Plan) (marks : Marks) : Bool → List Node → Bool
  | _, [] => true
  | docstring, s :: rest => passesOver plan marks docstring s && settled plan marks false rest

section Rests

variable (plan : Plan) (marks : Marks)

mutual
/-- There is nothing to count in the node. -/
inductive Rests : Node → Prop
  | gap : Rests .gap
  | marked {i c p fs} (held : marks.contains i = true) : Rests (.mk i c p fs)
  | classDef {i p name bases keywords body decorators} (hds : RestsAll decorators) (hbs : RestsAll bases)
    (hks : RestsAll keywords) (hb : settled plan marks true body = true) :
    Rests (.mk i .classDef p [name, .many bases, .many keywords, .many body, .many decorators])
  | plain {i c p fs} (noRule : hasRule c fs = false) (hfs : RestsFields c.fieldNames fs) : Rests (.mk i c p fs)

inductive RestsFields : List String → List Field → Prop
  | nil {names} : RestsFields names []
  | skipped {name names f fs} (hover : isSkippedField name = true) (hfs : RestsFields names fs) :
    RestsFields (name :: names) (f :: fs)
  | walked {name names f fs} (hf : RestsField f) (hfs : RestsFields names fs) : RestsFields (name :: names) (f :: fs)

inductive RestsField : Field → Prop
  | atom {f} (holdsNone : isAtom f = true) : RestsField f
  | child {n} (hn : Rests n) : RestsField (.child n)
  | block {ns} (starts : startsBlock ns = true) (hns : settled plan marks false ns = true) : RestsField (.many ns)
  | all {ns} (starts : startsBlock ns = false) (hns : RestsAll ns) : RestsField (.many ns)

inductive RestsAll : List Node → Prop
  | nil : RestsAll []
  | cons {n ns} (hn : Rests n) (hns : RestsAll ns) : RestsAll (n :: ns)
end

end Rests

variable {plan plan' : Plan} {marks : Marks}

theorem settled_cons {doc : Bool} {s : Node} {rest : List Node} :
    settled plan marks doc (s :: rest) = true ↔
      passesOver plan marks doc s = true ∧ settled plan marks false rest = true := by
  rw [settled, Bool.and_eq_true]

/-- A docstring may be passed over, but does not have to be there. -/
theorem settled_of_false {ns : List Node} (doc : Bool) (h : settled plan marks false ns = true) :
    settled plan marks doc ns = true := by
  cases ns with
  | nil => rfl
  | cons s rest =>
    rw [settled_cons] at h ⊢
    refine ⟨?_, h.2⟩
    have hover := h.1
    simp only [passesOver, Bool.or_eq_true, Bool.false_and, Bool.false_eq_true, or_false] at hover
    rcases hover with hover | hfuture
    · simp [passesOver, hover]
    · simp [passesOver, hfuture]

/-! ## Filling in places -/

section FillPlaces

variable {outer : Place}

@[simp]
theorem holds_fillPlaces (n : Node) : marks.holds (n.fillPlaces outer) = marks.holds n := by
  cases n <;> simp [Marks.holds]

@[simp]
theorem isStatement_fillPlaces (n : Node) : (n.fillPlaces outer).isStatement = n.isStatement := by
  cases n <;> simp [Node.isStatement, Node.cls?]

@[simp]
theorem startsBlock_fillNodes (ns : List Node) : startsBlock (fillNodes outer ns) = startsBlock ns := by
  cases ns <;> simp [startsBlock]

theorem place_fillPlaces_line {n : Node} {line : Int} (h : n.place.line = some line) :
    (n.fillPlaces outer).place.line = some line := by
  cases n with
  | gap => cases h
  | mk i c p fs =>
    have h : p.line = some line := h
    rw [Node.fillPlaces_mk]
    change (c.ownPlace p outer).line = some line
    unfold NodeClass.ownPlace
    split
    next => simp [Place.fill, h]
    next => exact h

theorem excludesLine_fillPlaces {n : Node} (h : plan.excludesLine n.place.line = true) :
    plan.excludesLine (n.fillPlaces outer).place.line = true := by
  cases hline : n.place.line with
  | none =>
    rw [hline] at h
    cases h
  | some line =>
    rw [place_fillPlaces_line hline]
    rwa [hline] at h

theorem mem_decorators_fillPlaces (outer : Place) {n d : Node} (hd : d ∈ n.decorators) :
    ∃ inner, d.fillPlaces inner ∈ (n.fillPlaces outer).decorators := by
  unfold Node.decorators at hd
  split at hd
  next =>
    rw [Node.fillPlaces_mk]
    simp only [fillFields_cons, Field.fillPlaces_many, fillFields_nil, Node.decorators, fillNodes_eq_map]
    exact ⟨_, List.mem_map_of_mem hd⟩
  next =>
    rw [Node.fillPlaces_mk]
    simp only [fillFields_cons, Field.fillPlaces_many, fillFields_nil, Node.decorators, fillNodes_eq_map]
    exact ⟨_, List.mem_map_of_mem hd⟩
  next => cases hd

/-- A statement that is excluded stays so: its line and those of its decorators are kept. -/
theorem excludes_fillPlaces {n : Node} (h : plan.excludes n = true) : plan.excludes (n.fillPlaces outer) = true := by
  unfold Plan.excludes at h ⊢
  rw [Bool.or_eq_true] at h ⊢
  rcases h with hline | hdecorators
  · exact .inl (excludesLine_fillPlaces hline)
  · obtain ⟨d, hd, hline⟩ := List.any_eq_true.1 hdecorators
    obtain ⟨inner, hmem⟩ := mem_decorators_fillPlaces outer hd
    exact .inr (List.any_eq_true.2 ⟨_, hmem, excludesLine_fillPlaces hline⟩)

theorem isDocstring_fillPlaces {n : Node} (h : n.isDocstring = true) : (n.fillPlaces outer).isDocstring = true := by
  unfold Node.isDocstring at h
  split at h
  next => simp [Node.isDocstring]
  next => cases h

theorem isFutureImport_fillPlaces {n : Node} (h : n.isFutureImport = true) :
    (n.fillPlaces outer).isFutureImport = true := by
  unfold Node.isFutureImport at h
  split at h
  next => simpa [Node.isFutureImport] using h
  next => cases h

theorem passesOver_fillPlaces {doc : Bool} {n : Node} (h : passesOver plan marks doc n = true) :
    passesOver plan marks doc (n.fillPlaces outer) = true := by
  simp only [passesOver, Bool.or_eq_true, Bool.and_eq_true, holds_fillPlaces] at h ⊢
  rcases h with ((hheld | hexcluded) | ⟨hdoc, hstring⟩) | hfuture
  · exact .inl (.inl (.inl hheld))
  · exact .inl (.inl (.inr (excludes_fillPlaces hexcluded)))
  · exact .inl (.inr ⟨hdoc, isDocstring_fillPlaces hstring⟩)
  · exact .inr (isFutureImport_fillPlaces hfuture)

theorem settled_fillNodes {doc : Bool} {ns : List Node} (h : settled plan marks doc ns = true) :
    settled plan marks doc (fillNodes outer ns) = true := by
  induction ns generalizing doc with
  | nil => simp [settled]
  | cons s rest ih =>
    rw [settled_cons] at h
    rw [fillNodes_cons, settled_cons]
    exact ⟨passesOver_fillPlaces h.1, ih h.2⟩

theorem hasRule_fillFields {c : NodeClass} {fs : List Field} (h : hasRule c fs = false) :
    hasRule c (fillFields outer fs) = false := by
  rw [Bool.eq_false_iff]
  intro hrule
  have hfs : hasRule c fs = true := by
    unfold hasRule at hrule
    split at hrule
    case h_5 => rfl
    case h_12 => cases hrule
    all_goals
      next hfields =>
      simp only [fillFields_eq_cons, fillFields_eq_nil, fillPlaces_eq_many, fillPlaces_eq_child,
        fillPlaces_eq_text] at hfields
      grind [hasRule]
  rw [h] at hfs
  cases hfs

mutual
/-- Filling in places gives a walk nothing to do. -/
theorem Rests.fillPlaces (outer : Place) : ∀ {n : Node}, Rests plan marks n → Rests plan marks (n.fillPlaces outer)
  | _, .gap => by
    rw [Node.fillPlaces_gap]
    exact .gap
  | _, .marked held => by
    rw [Node.fillPlaces_mk]
    exact .marked held
  | _, .classDef hds hbs hks hb => by
    simp only [Node.fillPlaces_mk, fillFields_cons, Field.fillPlaces_many, fillFields_nil]
    exact .classDef (hds.fillNodes _) (hbs.fillNodes _) (hks.fillNodes _) (settled_fillNodes hb)
  | _, .plain noRule hfs => by
    rw [Node.fillPlaces_mk]
    exact .plain (hasRule_fillFields noRule) (hfs.fillFields _)

theorem RestsFields.fillFields (outer : Place) :
    ∀ {names : List String} {fs : List Field}, RestsFields plan marks names fs →
      RestsFields plan marks names (fillFields outer fs)
  | _, _, .nil => by
    rw [fillFields_nil]
    exact .nil
  | _, _, .skipped hover hfs => by
    rw [fillFields_cons]
    exact .skipped hover (hfs.fillFields outer)
  | _, _, .walked hf hfs => by
    rw [fillFields_cons]
    exact .walked (hf.fillPlaces outer) (hfs.fillFields outer)

theorem RestsField.fillPlaces (outer : Place) :
    ∀ {f : Field}, RestsField plan marks f → RestsField plan marks (f.fillPlaces outer)
  | f, .atom holdsNone => by
    have hsame : f.fillPlaces outer = f := by cases f <;> first | rfl | cases holdsNone
    rw [hsame]
    exact .atom holdsNone
  | _, .child hn => .child (hn.fillPlaces outer)
  | _, .block starts hns => .block (by simpa using starts) (settled_fillNodes hns)
  | _, .all starts hns => .all (by simpa using starts) (hns.fillNodes outer)

theorem RestsAll.fillNodes (outer : Place) :
    ∀ {ns : List Node}, RestsAll plan marks ns → RestsAll plan marks (fillNodes outer ns)
  | _, .nil => by
    rw [fillNodes_nil]
    exact .nil
  | _, .cons hn hns => by
    rw [fillNodes_cons]
    exact .cons (hn.fillPlaces outer) (hns.fillNodes outer)
end

end FillPlaces

/-! ## A walk in which nothing happens -/

section Keeps

variable {ε ε' α β : Type}

/-- Where these nodes are marked, the step gives `a` and does nothing but leave remarks. -/
def Keeps (marks : Marks) (x : ExceptT ε (StateM State) α) (a : α) : Prop :=
  ∀ s : State, s.marks = marks → ∃ notes, Yields x s a { s with notes }

theorem keeps_pure (a : α) : Keeps marks (pure a : ExceptT ε (StateM State) α) a :=
  fun s _ ↦ ⟨s.notes, yields_pure.2 ⟨rfl, rfl⟩⟩

theorem Keeps.bind {x : ExceptT ε (StateM State) α} {f : α → ExceptT ε (StateM State) β} {a : α} {b : β}
    (hx : Keeps marks x a) (hf : Keeps marks (f a) b) : Keeps marks (x >>= f) b := by
  intro s hs
  obtain ⟨notes, hx⟩ := hx s hs
  obtain ⟨notes', hf⟩ := hf { s with notes } hs
  exact ⟨notes', yields_bind.2 ⟨a, _, hx, hf⟩⟩

theorem Keeps.within {f : ε → ε'} {x : Visit ε α} {a : α} (hx : Keeps marks x a) :
    Keeps marks (within f x) a := by
  intro s hs
  obtain ⟨notes, hx⟩ := hx s hs
  exact ⟨notes, yields_within.2 hx⟩

theorem Keeps.leaving {left : ε} {x : Pass.Step α} {a : α} (hx : Keeps marks x a) :
    Keeps marks (leaving left x) a := by
  intro s hs
  obtain ⟨notes, hx⟩ := hx s hs
  exact ⟨notes, yields_leaving.2 hx⟩

theorem keeps_isMarked {n : Node} {f : Bool → ExceptT ε (StateM State) α} {a : α}
    (hf : Keeps marks (f (marks.holds n)) a) : Keeps marks (liftM (isMarked n) >>= f) a := by
  intro s hs
  obtain ⟨notes, hf⟩ := hf s hs
  exact ⟨notes, yields_bind.2 ⟨_, s, yields_lift.2 ⟨by rw [← hs]; rfl, rfl⟩, hf⟩⟩

end Keeps

theorem excludes_congr (h : plan'.excluded = plan.excluded) (n : Node) : plan'.excludes n = plan.excludes n := by
  unfold Plan.excludes Plan.excludesLine
  rw [h]

theorem placeable_of_decorators {i : NodeId} {c : NodeClass} {p : Place} {fs : List Field}
    (h : (Node.mk i c p fs).decorators ≠ []) : c.role.placeable = true := by
  unfold Node.decorators at h
  split at h
  next heq =>
    cases heq
    rfl
  next heq =>
    cases heq
    rfl
  next => exact absurd rfl h

/-- Noting an excluded statement changes no mark. -/
theorem keeps_noteExcluded {n : Node} (hplaced : n.placed = true) (h : plan.excludes n = true) :
    Keeps marks (noteExcluded n) () := by
  cases n with
  | gap => exact keeps_pure ()
  | mk i c p fs =>
    obtain ⟨line, hline⟩ := line_of_excludes h fun hdecorators ↦
      (placed_mk.1 hplaced).1 (placeable_of_decorators hdecorators)
    have hline : p.line = some line := hline
    simp only [noteExcluded, hline]
    exact fun s _ ↦ ⟨_, yields_lift.2 ⟨rfl, rfl⟩⟩

/-- A walk through a settled block changes nothing. -/
theorem keeps_visitBlock (hex : plan'.excluded = plan.excluded) {doc : Bool} {ns : List Node}
    (h : settled plan marks doc ns = true) (hplaced : nodesPlaced ns = true) :
    Keeps marks (visitBlock plan' doc ns) (ns.map fun n ↦ ⟨none, n⟩) := by
  induction ns generalizing doc with
  | nil =>
    rw [visitBlock]
    exact keeps_pure []
  | cons n rest ih =>
    rw [settled_cons] at h
    rw [nodesPlaced_cons] at hplaced
    have hrest : Keeps marks (do return ⟨none, n⟩ :: (← within (n :: ·) (visitBlock plan' false rest)) :
        Visit (List Node) (List Slot)) ((n :: rest).map fun n ↦ ⟨none, n⟩) :=
      .bind (ih h.2 hplaced.2).within (keeps_pure _)
    rw [visitBlock]
    refine keeps_isMarked ?_
    rw [excludes_congr hex]
    split
    next => exact hrest
    next hfree =>
      split
      next hexcluded => exact .bind (keeps_noteExcluded hplaced.1 hexcluded).leaving hrest
      next hkept =>
        have hleft : (doc && n.isDocstring || n.isFutureImport) = true := by simp_all [passesOver]
        rw [if_pos hleft]
        exact hrest

theorem finished_map_none (ns : List Node) : finished (ns.map fun n ↦ ⟨none, n⟩) = ns := by
  induction ns with
  | nil => rfl
  | cons n ns ih => simpa [finished_cons] using ih

mutual
/-- A walk into a resting node changes nothing. -/
theorem keeps_visit (hex : plan'.excluded = plan.excluded) :
    ∀ {n : Node}, Rests plan marks n → n.placed = true → Keeps marks (visit plan' n) n
  | _, .gap, _ => by
    rw [visit]
    exact keeps_pure _
  | .mk i c p fs, .marked held, _ => by
    obtain ⟨rest, hvisit⟩ := visit_mk plan' i c p fs
    rw [hvisit]
    refine keeps_isMarked ?_
    have hheld : marks.holds (.mk i c p fs) = true := held
    rw [if_pos hheld]
    exact keeps_pure _
  | _, .classDef hds hbs hks hb, hplaced => by
    simp only [placed_mk, fieldsPlaced_cons, placed_many] at hplaced
    obtain ⟨-, -, hbases, hkeywords, hbody, hdecorators, -⟩ := hplaced
    rw [visit]
    refine keeps_isMarked ?_
    split
    next => exact keeps_pure _
    next =>
      refine .bind (keeps_visitAll hex hds hdecorators).within ?_
      refine .bind (keeps_visitAll hex hbs hbases).within ?_
      refine .bind (keeps_visitAll hex hks hkeywords).within ?_
      refine .bind (keeps_visitBlock hex hb hbody).within ?_
      rw [finished_map_none]
      exact keeps_pure _
  | .mk i c p fs, .plain noRule hfs, hplaced => by
    rw [visit_of_not_hasRule noRule]
    refine keeps_isMarked ?_
    split
    next => exact keeps_pure _
    next => exact .bind (keeps_visitFields hex hfs (placed_mk.1 hplaced).2).within (keeps_pure _)

theorem keeps_visitFields (hex : plan'.excluded = plan.excluded) :
    ∀ {names : List String} {fs : List Field}, RestsFields plan marks names fs → fieldsPlaced fs = true →
      Keeps marks (visitFields plan' names fs) fs
  | names, _, .nil, _ => by
    rw [visitFields]
    · exact keeps_pure _
    · simp
  | _, _, .skipped hover hfs, hplaced => by
    rw [visitFields, if_pos hover]
    exact .bind (keeps_pure _) (.bind (keeps_visitFields hex hfs (fieldsPlaced_cons.1 hplaced).2).within (keeps_pure _))
  | _, f :: _, .walked hf hfs, hplaced => by
    rw [fieldsPlaced_cons] at hplaced
    rw [visitFields]
    split
    next => exact .bind (keeps_pure f) (.bind (keeps_visitFields hex hfs hplaced.2).within (keeps_pure _))
    next =>
      refine .bind (keeps_visitField hex hf hplaced.1).within ?_
      exact .bind (keeps_visitFields hex hfs hplaced.2).within (keeps_pure _)

/-- A walk leaves a field at rest as it is. -/
theorem keeps_visitField (hex : plan'.excluded = plan.excluded) :
    ∀ {f : Field}, RestsField plan marks f → f.placed = true → Keeps marks (visitField plan' f) f
  | f, .atom holdsNone, _ => by
    cases f with
    | child n => cases holdsNone
    | many ns => cases holdsNone
    | _ => exact keeps_pure _
  | _, .child hn, hplaced => by
    rw [placed_child] at hplaced
    rw [visitField]
    exact .bind (keeps_visit hex hn hplaced).within (keeps_pure _)
  | _, .block starts hns, hplaced => by
    rw [placed_many] at hplaced
    rw [visitField, if_pos starts]
    refine .bind (keeps_visitBlock hex hns hplaced).within ?_
    rw [finished_map_none]
    exact keeps_pure _
  | _, .all starts hns, hplaced => by
    rw [placed_many] at hplaced
    rw [visitField, if_neg (by simp [starts])]
    exact .bind (keeps_visitAll hex hns hplaced).within (keeps_pure _)

theorem keeps_visitAll (hex : plan'.excluded = plan.excluded) :
    ∀ {ns : List Node}, RestsAll plan marks ns → nodesPlaced ns = true → Keeps marks (visitAll plan' ns) ns
  | _, .nil, _ => by
    rw [visitAll]
    exact keeps_pure _
  | _, .cons hn hns, hplaced => by
    rw [nodesPlaced_cons] at hplaced
    rw [visitAll]
    exact .bind (keeps_visit hex hn hplaced.1).within (.bind (keeps_visitAll hex hns hplaced.2).within (keeps_pure _))
end

/-! ## Passes in which nothing happens -/

/-- The pass gives the tree back and counts nothing; the marks are then `marks`. -/
structure LeavesAlone (tree : Node) (marks : Marks) (i : Instrumented) : Prop where
  tree : i.tree = tree
  marks : i.marks = marks
  entries : i.record.entries = []
  groups : i.record.groups = []

/-- A pass over a resting tree in which no place is missing leaves it alone. -/
theorem instrument_of_rests (next : NodeId) {tree : Node} (hex : plan'.excluded = plan.excluded)
    (hrests : Rests plan marks tree) (hplaced : tree.placed = true) :
    ∃ i, instrument plan' marks next tree = .ok i ∧ LeavesAlone tree marks i := by
  obtain ⟨notes, hrun⟩ := keeps_visit hex hrests hplaced (start plan' marks next) rfl
  refine ⟨_, instrument_eq_ok.2 ⟨checkPlaces_of_placed tree hplaced, tree, _, hrun, rfl⟩, ?_⟩
  exact ⟨fillPlaces_eq_self _ tree hplaced, rfl, rfl, rfl⟩

/-- A pass over a module that holds a settled block marks the module and does nothing else. -/
theorem instrument_of_settled (next j : NodeId) (p : Place) {ns : List Node}
    (hex : plan'.excluded = plan.excluded) (hsettled : settled plan marks true ns = true)
    (hplaced : nodesPlaced ns = true) (hfree : marks.contains j = false) :
    ∃ i, instrument plan' marks next (.mk j .module p [.many ns, .many []]) = .ok i ∧
      LeavesAlone (.mk j .module p [.many ns, .many []]) (marks.mark j) i := by
  have htree : (Node.mk j .module p [.many ns, .many []]).placed = true := by
    simp [placed_mk, fieldsPlaced, placed_many, hplaced, nodesPlaced, NodeClass.role, NodeClass.table, Role.placeable]
  obtain ⟨notes, hblock⟩ := keeps_visitBlock hex hsettled hplaced (start plan' marks next) rfl
  have hrun : Yields (visit plan' (.mk j .module p [.many ns, .many []])) (start plan' marks next)
      (.mk j .module p [.many ns, .many []]) { start plan' (marks.mark j) next with notes } := by
    rw [visit]
    refine yields_bind.2 ⟨_, _, yields_lift.2 ⟨hfree, rfl⟩, ?_⟩
    rw [if_neg Bool.false_ne_true]
    refine yields_bind.2 ⟨_, _, yields_within.2 hblock, ?_⟩
    refine yields_bind.2 ⟨_, _, yields_lift.2 ⟨rfl, rfl⟩, ?_⟩
    rw [finished_map_none]
    exact yields_pure.2 ⟨rfl, rfl⟩
  refine ⟨_, instrument_eq_ok.2 ⟨checkPlaces_of_placed _ htree, _, _, hrun, rfl⟩, ?_⟩
  exact ⟨fillPlaces_eq_self _ _ htree, rfl, rfl, rfl⟩

end Coverage.Pass
