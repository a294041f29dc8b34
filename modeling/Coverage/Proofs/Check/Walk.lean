import Coverage.Proofs.Check.Walkable
import Coverage.Proofs.Pass.Walk

/-!
# Walks that are not stopped

A walk into a walkable tree of the grammar reaches its end. What can stop it is a missing place or a list that
is empty; the first is what walkability is about, and the second the grammar rules out. `Succeeds` says this of
a part of a walk, in every state in which at least the nodes `marks` are marked: the walk marks more nodes, and
then only stops earlier.
-/

namespace Coverage.Pass

open Syntax

variable {body ns orelse rest : List Node} {n test : Node} {fs : List Field} {c : NodeClass}

/-- In every state in which the nodes `marks` are marked, the step is not stopped, keeps these marks, and gives
something that satisfies `Q`. -/
def Succeeds {ε α : Type} (marks : Marks) (x : ExceptT ε (StateM State) α) (Q : α → Prop) : Prop :=
  ∀ s : State, marks.Among s.marks → ∃ a t, Yields x s a t ∧ marks.Among t.marks ∧ Q a

variable {plan : Plan} {marks : Marks} {full : Bool} {cat : Category} {ε ε' α β : Type}

namespace Succeeds

variable {x : ExceptT ε (StateM State) α} {Q Q' : α → Prop}

theorem pure {a : α} (h : Q a) : Succeeds marks (pure a : ExceptT ε (StateM State) α) Q :=
  fun s hs ↦ ⟨a, s, yields_pure.2 ⟨rfl, rfl⟩, hs, h⟩

theorem bind {f : α → ExceptT ε (StateM State) β} {P : β → Prop} (hx : Succeeds marks x Q)
    (hf : ∀ a, Q a → Succeeds marks (f a) P) : Succeeds marks (x >>= f) P := by
  intro s hs
  obtain ⟨a, t, hx, ht, hQ⟩ := hx s hs
  obtain ⟨b, u, hf, hu, hP⟩ := hf a hQ t ht
  exact ⟨b, u, yields_bind.2 ⟨a, t, hx, hf⟩, hu, hP⟩

theorem imp (hx : Succeeds marks x Q) (h : ∀ a, Q a → Q' a) : Succeeds marks x Q' := by
  intro s hs
  obtain ⟨a, t, hx, ht, hQ⟩ := hx s hs
  exact ⟨a, t, hx, ht, h a hQ⟩

theorem within {f : ε → ε'} {x : Visit ε α} (hx : Succeeds marks x Q) : Succeeds marks (within f x) Q := by
  intro s hs
  obtain ⟨a, t, hx, ht⟩ := hx s hs
  exact ⟨a, t, yields_within.2 hx, ht⟩

theorem leaving {left : ε} {x : Pass.Step α} (hx : Succeeds marks x Q) : Succeeds marks (leaving left x) Q := by
  intro s hs
  obtain ⟨a, t, hx, ht⟩ := hx s hs
  exact ⟨a, t, yields_leaving.2 hx, ht⟩

/-- A step that cannot be stopped and takes no mark away. -/
theorem lift {x : StateM State α} (hx : ∀ s : State, s.marks.Among (x s).2.marks) :
    Succeeds marks (liftM x : ExceptT ε (StateM State) α) fun _ ↦ True :=
  fun s hs ↦ ⟨(x s).1, (x s).2, yields_lift.2 ⟨rfl, rfl⟩, fun i hi ↦ hx s i (hs i hi), trivial⟩

theorem map {x : StateM State α} (g : α → β)
    (hx : Succeeds marks (liftM x : ExceptT ε (StateM State) α) fun _ ↦ True) :
    Succeeds marks (liftM (do return g (← x) : StateM State β) : ExceptT ε (StateM State) β) fun _ ↦ True := by
  intro s hs
  obtain ⟨a, t, hx, ht, -⟩ := hx s hs
  obtain ⟨rfl, rfl⟩ := yields_lift.1 hx
  exact ⟨g (x s).1, (x s).2, yields_lift.2 ⟨rfl, rfl⟩, ht, trivial⟩

theorem get {f : State → ExceptT ε (StateM State) α}
    (hf : ∀ s : State, marks.Among s.marks → Succeeds marks (f s) Q) : Succeeds marks (get >>= f) Q := by
  intro s hs
  obtain ⟨a, t, hf, ht⟩ := hf s hs s hs
  exact ⟨a, t, yields_bind.2 ⟨s, s, yields_get.2 ⟨rfl, rfl⟩, hf⟩, ht⟩

/-- A node that is not marked now was not marked beforehand. -/
theorem isMarked {f : Bool → ExceptT ε (StateM State) α} (held : Succeeds marks (f true) Q)
    (free : marks.holds n = false → Succeeds marks (f false) Q) : Succeeds marks (liftM (isMarked n) >>= f) Q := by
  intro s hs
  have hf : Succeeds marks (f (s.marks.holds n)) Q := by
    cases h : s.marks.holds n with
    | true => exact held
    | false =>
      apply free
      rw [Bool.eq_false_iff]
      intro hmarks
      rw [hs.holds hmarks] at h
      cases h
  obtain ⟨a, t, hf, ht⟩ := hf s hs
  exact ⟨a, t, yields_bind.2 ⟨_, s, yields_lift.2 ⟨rfl, rfl⟩, hf⟩, ht⟩

end Succeeds

/-! ## Single steps -/

theorem succeeds_located {a : Except Unlocated α} (h : ∃ b, a = .ok b) :
    Succeeds marks (located a) fun b ↦ a = .ok b := by
  obtain ⟨b, hb⟩ := h
  exact fun s hs ↦ ⟨b, s, yields_located.2 ⟨hb, rfl⟩, hs, hb⟩

theorem succeeds_mark (i : NodeId) :
    Succeeds marks (liftM (mark i) : ExceptT ε (StateM State) Unit) fun _ ↦ True :=
  .lift fun s ↦ Marks.among_mark s.marks i

theorem succeeds_markNode (n : Node) :
    Succeeds marks (liftM (markNode n) : ExceptT ε (StateM State) Unit) fun _ ↦ True := by
  cases n with
  | gap => exact .pure trivial
  | mk i c p fs => exact succeeds_mark i

theorem succeeds_inject (size : Nat) (build : NodeId → Node) :
    Succeeds marks (liftM (inject size build) : ExceptT ε (StateM State) Node) fun _ ↦ True :=
  .lift fun s ↦ Marks.among_markRange s.marks s.next size

theorem succeeds_counter (key : Key) (place : Place) :
    Succeeds marks (liftM (counter plan key place) : ExceptT ε (StateM State) Node) fun _ ↦ True :=
  succeeds_inject Probe.counterSize _

theorem succeeds_wrap (key : Option Key) (e : Node) :
    Succeeds marks (liftM (wrap plan key e) : ExceptT ε (StateM State) Node) fun _ ↦ True := by
  cases key with
  | none => exact .pure trivial
  | some key => exact succeeds_inject Probe.wrapperSize _

theorem succeeds_countBefore (key : Option Key) (place : Place) :
    Succeeds marks (liftM (countBefore plan key place) : ExceptT ε (StateM State) (Option Node)) fun _ ↦ True := by
  cases key with
  | none => exact .pure trivial
  | some key => exact (succeeds_counter key place).map some

theorem succeeds_prepend (key : Option Key) (b : List Node) :
    Succeeds marks (liftM (prepend plan key b) : ExceptT ε (StateM State) (List Node)) fun _ ↦ True := by
  unfold prepend
  split
  next => exact (succeeds_counter _ _).map (· :: _)
  next => exact .pure trivial

theorem succeeds_elseClause (key : Option Key) (header : Place) (slots : List Slot) :
    Succeeds marks (liftM (elseClause plan key header slots) : ExceptT ε (StateM State) (List Node)) fun _ ↦ True := by
  unfold elseClause
  split
  next => exact .pure trivial
  next => exact (succeeds_counter _ _).map fun c ↦ [c]
  next => exact succeeds_prepend _ _

theorem succeeds_countEntry (key : Option Key) (doc : Bool) (b : List Node) :
    Succeeds marks (liftM (countEntry plan key doc b) : ExceptT ε (StateM State) (List Node)) fun _ ↦ True := by
  unfold countEntry
  split
  next d n rest => exact (succeeds_counter _ _).map fun c ↦ d :: c :: n :: rest
  next d => exact (succeeds_counter _ _).map fun c ↦ [d, c]
  next => exact (succeeds_counter _ _).map (· :: _)
  next => exact .pure trivial

theorem succeeds_guardBody (keys : List (Option Key)) (b : List Node) :
    Succeeds marks (liftM (guardBody plan keys b) : ExceptT ε (StateM State) (List Node)) fun _ ↦ True := by
  unfold guardBody
  split
  next => exact (succeeds_inject Probe.guardSize _).map fun g ↦ [g]
  next => exact .pure trivial

theorem succeeds_addFallback (key : Option Key) (subject : Node) (cs : List Node) :
    Succeeds marks (liftM (addFallback plan key subject cs) : ExceptT ε (StateM State) (List Node)) fun _ ↦ True := by
  unfold addFallback
  split
  next => exact (succeeds_inject Probe.fallbackSize _).map fun c ↦ cs ++ [c]
  next => exact .pure trivial

/-! ## Registration -/

theorem succeeds_registerUnit {kind : Kind} {name : Option String} (h : ∃ span, locate n = .ok span) :
    Succeeds marks (registerUnit plan kind n name) fun _ ↦ True := by
  unfold registerUnit
  split
  next =>
    refine (succeeds_located h).bind fun span _ ↦ .lift fun s ↦ ?_
    have hreg := (register_spec (s := s) (.started 0) { key := keyOf kind span, kind, span, name }).1
    rw [hreg.marks]
    exact fun _ hi ↦ hi
  next => exact .pure trivial

/-- A group is registered if its node has a span and there are arms. -/
theorem succeeds_registerGroup {construct : Construct} {arms : List Span} (h : ∃ span, locate n = .ok span)
    (harms : arms ≠ []) :
    Succeeds marks (registerGroup plan construct n arms) fun keys ↦ keys.length = arms.length := by
  unfold registerGroup
  split
  next =>
    refine (succeeds_located h).bind fun span _ ↦ .get fun s hs ↦ ?_
    have hlength : ¬(arms.length : Int) < 1 := by
      have hpos := List.length_pos_of_ne_nil harms
      omega
    simp only [Metadata.addGroup, if_neg hlength]
    intro t ht
    have hspec := registerArms_spec (s.record.nextGroup construct arms.length span).id 0 (numbered 0 0 arms)
      { t with
        record := { s.record with groups := s.record.groups ++ [s.record.nextGroup construct arms.length span] } }
    rw [map_snd_numbered] at hspec
    obtain ⟨hreg, -, hkeys⟩ := hspec
    refine ⟨_, _, yields_bind.2 ⟨(), _, yields_modify.2 rfl, yields_lift.2 ⟨rfl, rfl⟩⟩, ?_, ?_⟩
    · rw [hreg.marks]
      exact ht
    · refine hkeys.trans ?_
      rw [← List.length_map (fun arm ↦ arm.2), map_snd_numbered]
  next => exact .pure (by simp)

/-- The arms of a construct are located and offered as one group. -/
theorem succeeds_fork {construct : Construct} {arms : Except Unlocated (List Span)} (h : ∃ span, locate n = .ok span)
    (harms : ∃ spans, arms = .ok spans ∧ spans ≠ []) :
    Succeeds marks (do registerGroup plan construct n (← located arms)) fun keys ↦
      ∃ spans, arms = .ok spans ∧ keys.length = spans.length := by
  obtain ⟨spans, hspans, hne⟩ := harms
  refine (succeeds_located ⟨spans, hspans⟩).bind fun found hfound ↦ ?_
  obtain rfl : spans = found := Except.ok.inj (hspans.symm.trans hfound)
  exact (succeeds_registerGroup h hne).imp fun _ hlength ↦ ⟨spans, hspans, hlength⟩

/-- The note of an excluded statement gives its line. -/
theorem succeeds_noteExcluded (hstatement : n.isStatement = true) (hexcluded : plan.excludes n = true)
    (h : ∀ m ∈ noted n, m.located = true) : Succeeds marks (noteExcluded n) fun _ ↦ True := by
  cases n with
  | gap => cases hstatement
  | mk i c p fs =>
    have hrequired : c.role.required = true := by
      apply required_of_located
      rw [category_eq_statement.2 hstatement]
      rfl
    obtain ⟨line, hline⟩ := line_of_excludes hexcluded fun hdecorators ↦ by
      have hlocated := h (.mk i c p fs) (by simp [noted, hdecorators])
      simpa [Node.located, Node.place, hrequired] using hlocated
    have hline : p.line = some line := hline
    simp only [noteExcluded, hline]
    exact .lift fun s ↦ fun _ hi ↦ hi

/-! ## Nodes -/

/-- The part of a walk is not stopped. -/
abbrev Runs (marks : Marks) (x : ExceptT ε (StateM State) α) : Prop := Succeeds marks x fun _ ↦ True

/-- A marked node is passed by; of the others only the walk itself has to be looked at. -/
theorem runs_mk {i : NodeId} {p : Place} {rest : Visit Node Node} (hvisit : visit plan (.mk i c p fs) =
      (do if ← isMarked (.mk i c p fs) then return .mk i c p fs
          rest)) (hrest : marks.contains i = false → Runs marks rest) : Runs marks (visit plan (.mk i c p fs)) := by
  rw [hvisit]
  refine Succeeds.isMarked ?_ fun hfree ↦ ?_
  · rw [if_pos rfl]
    exact .pure trivial
  · rw [if_neg Bool.false_ne_true]
    exact hrest hfree

variable {i : NodeId} {p : Place}

theorem runs_module {ignores : Field} (hb : Runs marks (visitBlock plan true body)) :
    Runs marks (visit plan (.mk i .module p [.many body, ignores])) := by
  refine runs_mk (by rw [visit]) fun _ ↦ ?_
  refine hb.within.bind fun slots _ ↦ ?_
  exact (succeeds_mark i).bind fun _ _ ↦ .pure trivial

theorem runs_classDef {name : Field} {bases keywords decorators : List Node}
    (hds : Runs marks (visitAll plan decorators)) (hbs : Runs marks (visitAll plan bases))
    (hks : Runs marks (visitAll plan keywords)) (hb : Runs marks (visitBlock plan true body)) :
    Runs marks (visit plan (.mk i .classDef p [name, .many bases, .many keywords, .many body, .many decorators])) := by
  refine runs_mk (by rw [visit]) fun _ ↦ ?_
  refine hds.within.bind fun ds _ ↦ ?_
  refine hbs.within.bind fun bs _ ↦ ?_
  refine hks.within.bind fun ks _ ↦ ?_
  exact hb.within.bind fun slots _ ↦ .pure trivial

theorem runs_functionDef {async : Bool} {name : String} {args : Node} {decorators : List Node}
    {returns comment : Field} (hspan : ∃ span, locate (.mk i (.functionDef async) p
      [.text name, .child args, .many body, .many decorators, returns, comment]) = .ok span) (hsome : body ≠ [])
    (hds : Runs marks (visitAll plan decorators)) (ha : Runs marks (visit plan args))
    (hb : Runs marks (visitBlock plan true body)) :
    Runs marks (visit plan (.mk i (.functionDef async) p
      [.text name, .child args, .many body, .many decorators, returns, comment])) := by
  have hfirst : Runs marks (firstIsDocstring body) := by
    cases body with
    | nil => exact absurd rfl hsome
    | cons s rest => exact .pure trivial
  refine runs_mk (by rw [visit]) fun _ ↦ ?_
  refine (succeeds_registerUnit hspan).leaving.bind fun key _ ↦ ?_
  refine hds.within.bind fun ds _ ↦ ?_
  refine ha.within.bind fun a _ ↦ ?_
  refine hfirst.leaving.bind fun doc _ ↦ ?_
  refine hb.within.bind fun slots _ ↦ ?_
  exact (succeeds_countEntry key doc _).bind fun _ _ ↦ .pure trivial

theorem runs_lambda {args body : Node}
    (hspan : ∃ span, locate (.mk i .lambda p [.child args, .child body]) = .ok span)
    (ha : Runs marks (visit plan args)) (hb : Runs marks (visit plan body)) :
    Runs marks (visit plan (.mk i .lambda p [.child args, .child body])) := by
  refine runs_mk (by rw [visit]) fun _ ↦ ?_
  refine (succeeds_registerUnit hspan).leaving.bind fun key _ ↦ ?_
  refine ha.within.bind fun a _ ↦ ?_
  refine hb.within.bind fun b _ ↦ ?_
  refine (succeeds_wrap key b).bind fun b' _ ↦ ?_
  exact (succeeds_mark i).bind fun _ _ ↦ .pure trivial

theorem runs_ifExp {body orelse : Node}
    (hspan : ∃ span, locate (.mk i .ifExp p [.child test, .child body, .child orelse]) = .ok span)
    (hbody : ∃ span, locate body = .ok span) (horelse : ∃ span, locate orelse = .ok span)
    (ht : Runs marks (visit plan test)) (hb : Runs marks (visit plan body)) (ho : Runs marks (visit plan orelse)) :
    Runs marks (visit plan (.mk i .ifExp p [.child test, .child body, .child orelse])) := by
  have hgroup : Runs marks (do
      let first ← located (locate body)
      let second ← located (locate orelse)
      registerGroup plan .ternary (.mk i .ifExp p [.child test, .child body, .child orelse]) [first, second]) := by
    refine (succeeds_located hbody).bind fun first _ ↦ (succeeds_located horelse).bind fun second _ ↦ ?_
    exact (succeeds_registerGroup hspan (by simp)).imp fun _ _ ↦ trivial
  refine runs_mk (by rw [visit]) fun _ ↦ ?_
  refine hgroup.leaving.bind fun keys _ ↦ ?_
  refine ht.within.bind fun t _ ↦ ?_
  refine hb.within.bind fun b _ ↦ ?_
  refine (succeeds_wrap _ b).bind fun b' _ ↦ ?_
  refine ho.within.bind fun o _ ↦ ?_
  refine (succeeds_wrap _ o).bind fun o' _ ↦ ?_
  exact (succeeds_mark i).bind fun _ _ ↦ .pure trivial

theorem runs_boolOp {op : Field} {values : List Node}
    (hspan : ∃ span, locate (.mk i .boolOp p [op, .many values]) = .ok span)
    (harms : ∃ spans, values.mapM locate = .ok spans ∧ spans ≠ [])
    (hvs : ∀ keys, Runs marks (visitOperands plan keys values)) :
    Runs marks (visit plan (.mk i .boolOp p [op, .many values])) := by
  refine runs_mk (by rw [visit]) fun _ ↦ ?_
  refine (succeeds_fork hspan harms).leaving.bind fun keys _ ↦ ?_
  refine (hvs keys).within.bind fun slots _ ↦ ?_
  exact (succeeds_mark i).bind fun _ _ ↦ .pure trivial

theorem runs_whileLoop
    (hspan : ∃ span, locate (.mk i .whileLoop p [.child test, .many body, .many orelse]) = .ok span)
    (harms : ∃ spans, loopArms test body orelse = .ok spans ∧ spans ≠ []) (ht : Runs marks (visit plan test))
    (hb : Runs marks (visitBlock plan false body)) (ho : Runs marks (visitBlock plan false orelse)) :
    Runs marks (visit plan (.mk i .whileLoop p [.child test, .many body, .many orelse])) := by
  refine runs_mk (by rw [visit]) fun _ ↦ ?_
  refine (succeeds_fork hspan harms).leaving.bind fun keys _ ↦ ?_
  refine ht.within.bind fun t _ ↦ ?_
  refine hb.within.bind fun slots _ ↦ ?_
  refine (succeeds_prepend _ _).bind fun b _ ↦ ?_
  refine ho.within.bind fun slots' _ ↦ ?_
  exact (succeeds_elseClause _ _ _).bind fun _ _ ↦ .pure trivial

theorem runs_forLoop {async : Bool} {target iter : Node} {comment : Field}
    (hspan : ∃ span, locate (.mk i (.forLoop async) p
      [.child target, .child iter, .many body, .many orelse, comment]) = .ok span)
    (harms : ∃ spans, loopArms iter body orelse = .ok spans ∧ spans ≠ []) (ht : Runs marks (visit plan target))
    (hs : Runs marks (visit plan iter)) (hb : Runs marks (visitBlock plan false body))
    (ho : Runs marks (visitBlock plan false orelse)) :
    Runs marks (visit plan (.mk i (.forLoop async) p
      [.child target, .child iter, .many body, .many orelse, comment])) := by
  refine runs_mk (by rw [visit]) fun _ ↦ ?_
  refine (succeeds_fork hspan harms).leaving.bind fun keys _ ↦ ?_
  refine ht.within.bind fun t _ ↦ ?_
  refine hs.within.bind fun s _ ↦ ?_
  refine hb.within.bind fun slots _ ↦ ?_
  refine (succeeds_prepend _ _).bind fun b _ ↦ ?_
  refine ho.within.bind fun slots' _ ↦ ?_
  exact (succeeds_elseClause _ _ _).bind fun _ _ ↦ .pure trivial

theorem runs_tryStmt {star : Bool} {handlers finalbody : List Node} (hspan : ∃ span, locate (.mk i (.tryStmt star) p
      [.many body, .many handlers, .many orelse, .many finalbody]) = .ok span)
    (harms : ∃ spans, tryArms body handlers finalbody = .ok spans ∧ spans ≠ [])
    (hb : Runs marks (visitBlock plan false body)) (hh : Runs marks (visitHandlers plan handlers))
    (ho : Runs marks (visitBlock plan false orelse)) (hf : Runs marks (visitBlock plan false finalbody)) :
    Runs marks (visit plan (.mk i (.tryStmt star) p
      [.many body, .many handlers, .many orelse, .many finalbody])) := by
  refine runs_mk (by rw [visit]) fun _ ↦ ?_
  refine (succeeds_fork hspan harms).leaving.bind fun keys _ ↦ ?_
  refine hb.within.bind fun slots _ ↦ ?_
  refine hh.within.bind fun h _ ↦ ?_
  refine ho.within.bind fun o _ ↦ ?_
  refine hf.within.bind fun f _ ↦ ?_
  exact (succeeds_guardBody _ _).bind fun _ _ ↦ .pure trivial

theorem runs_matchStmt {subject : Node} {cases : List Node}
    (hspan : ∃ span, locate (.mk i .matchStmt p [.child subject, .many cases]) = .ok span) (hsome : cases ≠ [])
    (harms : ∀ hasDefault, ∃ spans, matchArms subject cases hasDefault = .ok spans ∧ spans ≠ [])
    (hs : Runs marks (visit plan subject)) (hcs : ∀ keys, Runs marks (visitCases plan keys cases)) :
    Runs marks (visit plan (.mk i .matchStmt p [.child subject, .many cases])) := by
  have hlast : Runs marks (lastIsDefault cases) := by
    unfold lastIsDefault
    split
    next hnone => exact absurd (List.getLast?_eq_none_iff.1 hnone) hsome
    next => exact .pure trivial
  refine runs_mk (by rw [visit]) fun _ ↦ ?_
  refine hlast.leaving.bind fun hasDefault _ ↦ ?_
  refine (succeeds_fork hspan (harms hasDefault)).leaving.bind fun keys _ ↦ ?_
  refine hs.within.bind fun s _ ↦ ?_
  refine (hcs keys).within.bind fun cs _ ↦ ?_
  split
  next => exact .pure trivial
  next => exact (succeeds_addFallback _ _ _).bind fun _ _ ↦ .pure trivial

/-- A node for which there is no rule is walked field by field. -/
theorem runs_plain (noRule : hasRule c fs = false) (h : Runs marks (visitFields plan c.fieldNames fs)) :
    Runs marks (visit plan (.mk i c p fs)) := by
  refine runs_mk (visit_of_not_hasRule noRule p) fun _ ↦ ?_
  exact h.within.bind fun _ _ ↦ .pure trivial

/-! ## Chains -/

/-- The walk along an `if` chain for which there are as many keys as arms. -/
def RunsChain (plan : Plan) (marks : Marks) (i : NodeId) (p : Place) (fs : List Field) : Prop :=
  ∀ (marks' : Marks) (keys : List (Option Key)) (arms : List Span), marks.Among marks' →
    chainArms plan marks' (.mk i .ifStmt p fs) = .ok arms → keys.length = arms.length →
      Runs marks (visitChain plan i p keys fs)

theorem runs_ifStmt (hspan : ∃ span, locate (.mk i .ifStmt p fs) = .ok span)
    (harms : ∀ marks', marks.Among marks' → ∃ arms, chainArms plan marks' (.mk i .ifStmt p fs) = .ok arms ∧ arms ≠ [])
    (h : RunsChain plan marks i p fs) : Runs marks (visit plan (.mk i .ifStmt p fs)) := by
  refine runs_mk (by rw [visit]) fun _ ↦ Succeeds.get fun s hs ↦ ?_
  refine (succeeds_fork hspan (harms s.marks hs)).leaving.bind ?_
  rintro keys ⟨arms, harms, hlength⟩
  exact h s.marks keys arms hs harms hlength

/-- The chain goes on at a link only if the link continued it when the arms were located. -/
theorem runsChain_cons (ht : Runs marks (visit plan test)) (hb : Runs marks (visitBlock plan false body))
    (ho : Runs marks (visitBlock plan false orelse))
    (hnext : ∀ marks' j q fs, marks.Among marks' → orelse = [.mk j .ifStmt q fs] →
      continues plan marks' (.mk j .ifStmt q fs) = true → RunsChain plan marks j q fs) :
    RunsChain plan marks i p [.child test, .many body, .many orelse] := by
  intro marks' keys arms hmarks harms hkeys
  rw [visitChain]
  refine ht.within.bind fun t _ ↦ ?_
  refine hb.within.bind fun slots _ ↦ ?_
  refine (succeeds_prepend _ _).bind fun b _ ↦ ?_
  refine (succeeds_mark i).bind fun _ _ ↦ ?_
  split
  next key key' keys j q fs =>
    cases hlast : hasNextLink plan marks' [.mk j .ifStmt q fs] with
    | false =>
      rw [(chainArms_last hlast harms).1] at hkeys
      simp at hkeys
    | true =>
      have hlink : continues plan marks' (.mk j .ifStmt q fs) = true := hlast
      obtain ⟨span, rest, rfl, hrest, -⟩ := chainArms_next hlink harms
      have hruns := hnext marks' j q fs hmarks rfl hlink marks' (key :: key' :: keys) rest hmarks hrest
        (by simpa using hkeys)
      exact hruns.within.bind fun _ _ ↦ .pure trivial
  next =>
    refine ho.within.bind fun slots' _ ↦ ?_
    exact (succeeds_elseClause _ _ _).bind fun _ _ ↦ .pure trivial

/-! ## Lists and fields -/

theorem runsAll_cons (hn : Runs marks (visit plan n)) (hns : Runs marks (visitAll plan ns)) :
    Runs marks (visitAll plan (n :: ns)) := by
  rw [visitAll]
  exact hn.within.bind fun _ _ ↦ hns.within.bind fun _ _ ↦ .pure trivial

/-- A statement that is passed over needs nothing of its own. -/
theorem runsBlock_cons {doc : Bool} {s : Node} (hs : s.isA full .statement = true) (hw : Walkable plan marks s)
    (hvisit : Enterable plan marks s → Runs marks (visit plan s)) (hrest : Runs marks (visitBlock plan false rest)) :
    Runs marks (visitBlock plan doc (s :: rest)) := by
  have hskip : Runs marks (do return ⟨none, s⟩ :: (← within (s :: ·) (visitBlock plan false rest)) :
      Visit (List Node) (List Slot)) := hrest.within.bind fun _ _ ↦ .pure trivial
  have hstatement := isStatement_of_isA hs
  rw [visitBlock]
  refine Succeeds.isMarked ?_ fun hfree ↦ ?_
  · rw [if_pos rfl]
    exact hskip
  · rw [if_neg Bool.false_ne_true]
    split
    next hexcluded =>
      have hnoted := noted_of_walkable hw hfree (by rw [hstatement, hexcluded, Bool.true_and])
      exact (succeeds_noteExcluded hstatement hexcluded hnoted).leaving.bind fun _ _ ↦ hskip
    next hkept =>
      split
      next => exact hskip
      next =>
        have henter : Enterable plan marks s := enterable_of_walkable hw (by simp [hkept])
        have hlocated := located_of_enterable henter (by rintro rfl; cases hstatement) hfree
        refine (succeeds_registerUnit (locate_of_located hs rfl hlocated)).leaving.bind fun key _ ↦ ?_
        refine (hvisit henter).within.bind fun s' _ ↦ ?_
        refine (succeeds_markNode s).bind fun _ _ ↦ ?_
        refine (succeeds_countBefore key _).bind fun before _ ↦ ?_
        exact hrest.within.bind fun _ _ ↦ .pure trivial

theorem runsOperands_cons {v : Node} {vs : List Node} (hv : Runs marks (visit plan v))
    (hvs : ∀ keys, Runs marks (visitOperands plan keys vs)) (keys : List (Option Key)) :
    Runs marks (visitOperands plan keys (v :: vs)) := by
  cases keys with
  | nil =>
    rw [visitOperands]
    · exact .pure trivial
    · simp
  | cons key keys =>
    rw [visitOperands]
    refine hv.within.bind fun v' _ ↦ ?_
    refine (succeeds_wrap key v').bind fun w _ ↦ ?_
    exact (hvs keys).within.bind fun _ _ ↦ .pure trivial

theorem runsCases_cons {pattern guard : Field} (hg : Runs marks (visitField plan guard))
    (hb : Runs marks (visitBlock plan false body)) (hrest : ∀ keys, Runs marks (visitCases plan keys rest))
    (keys : List (Option Key)) :
    Runs marks (visitCases plan keys (.mk i c p [pattern, guard, .many body] :: rest)) := by
  cases keys with
  | nil =>
    rw [visitCases]
    · exact .pure trivial
    · simp
  | cons key keys =>
    rw [visitCases]
    refine hg.within.bind fun g _ ↦ ?_
    refine hb.within.bind fun slots _ ↦ ?_
    refine (succeeds_prepend key _).bind fun b _ ↦ ?_
    refine (succeeds_mark i).bind fun _ _ ↦ ?_
    exact (hrest keys).within.bind fun _ _ ↦ .pure trivial

theorem runsHandlers_cons {type name : Field} (ht : Runs marks (visitField plan type))
    (hb : Runs marks (visitBlock plan false body)) (hrest : Runs marks (visitHandlers plan rest)) :
    Runs marks (visitHandlers plan (.mk i c p [type, name, .many body] :: rest)) := by
  rw [visitHandlers]
  refine ht.within.bind fun t _ ↦ ?_
  refine hb.within.bind fun slots _ ↦ ?_
  refine (succeeds_mark i).bind fun _ _ ↦ ?_
  exact hrest.within.bind fun _ _ ↦ .pure trivial

theorem runsFields_cons {name : String} {names : List String} {f : Field}
    (hf : isSkippedField name = false → Runs marks (visitField plan f)) (hfs : Runs marks (visitFields plan names fs)) :
    Runs marks (visitFields plan (name :: names) (f :: fs)) := by
  rw [visitFields]
  split
  next => exact hfs.within.bind fun _ _ ↦ .pure trivial
  next hname =>
    refine (hf (by simpa using hname)).within.bind fun f' _ ↦ ?_
    exact hfs.within.bind fun _ _ ↦ .pure trivial

/-! ## Trees of the grammar -/

/-- A walk into a field has what it needs. -/
structure Provided (plan : Plan) (marks : Marks) (f : Field) : Prop where
  stocked : f.stocked = true
  walkable : FieldWalkable plan marks f

theorem provided_child : Provided plan marks (.child n) ↔ n.stocked = true ∧ Walkable plan marks n := by
  rw [← stocked_child, ← fieldWalkable_child]
  exact ⟨fun h ↦ ⟨h.stocked, h.walkable⟩, fun h ↦ ⟨h.1, h.2⟩⟩

theorem provided_many : Provided plan marks (.many ns) ↔ nodesStocked ns = true ∧ NodesWalkable plan marks ns := by
  rw [← stocked_many, ← fieldWalkable_many]
  exact ⟨fun h ↦ ⟨h.stocked, h.walkable⟩, fun h ↦ ⟨h.1, h.2⟩⟩

theorem provided_cons :
    Provided plan marks (.many (n :: ns)) ↔ Provided plan marks (.child n) ∧ Provided plan marks (.many ns) := by
  rw [provided_many, provided_child, provided_many, nodesStocked_cons, nodesWalkable_cons]
  tauto

/-- What the walk into a field needs, by the position of the field. -/
theorem provided_at {names : List String} (hstock : fieldsStocked fs = true) (hw : FieldsWalkable plan marks names fs)
    (k : Nat) {f : Field} (hf : fs[k]? = some f) (hopen : names[k]?.map isSkippedField = some false) :
    Provided plan marks f := by
  induction fs generalizing names k with
  | nil => simp at hf
  | cons g fs ih =>
    cases names with
    | nil => simp at hopen
    | cons name names =>
      rw [fieldsStocked_cons] at hstock
      rw [fieldsWalkable_cons] at hw
      cases k with
      | zero =>
        obtain rfl : g = f := by simpa using hf
        have hname : isSkippedField name = false := by simpa using hopen
        exact ⟨hstock.1, hw.1.resolve_left (by simp [hname])⟩
      | succ k => exact ih hstock.2 hw.2 k (by simpa using hf) (by simpa using hopen)

theorem runs_gap : Runs marks (visit plan .gap) := by
  rw [visit]
  exact .pure trivial

mutual
/-- A walk into a stocked tree of the grammar is not stopped if the tree has the places it needs. -/
theorem runs_of_isA {cat : Category} : ∀ n : Node, n.isA full cat = true → n.stocked = true →
    Enterable plan marks n → Runs marks (visit plan n)
  | .gap, h, _, _ => by simp [Node.isA] at h
  | .mk i c p fs, h, hstocked, henter => by
    rcases enterable_mk.1 henter with held | ⟨hlocated, hinside⟩
    · obtain ⟨rest, hvisit⟩ := visit_mk plan i c p fs
      refine runs_mk hvisit fun hfree ↦ ?_
      rw [held] at hfree
      cases hfree
    · have hspan : cat.located = true → ∃ span, locate (.mk i c p fs) = .ok span :=
        fun hcat ↦ locate_of_located h hcat hlocated
      obtain ⟨rfl, hfs⟩ := isA_mk.1 h
      obtain ⟨hne, hstock⟩ := stocked_mk.1 hstocked
      have hw := hinside.fields
      -- What is provided for each field that is walked into.
      have hat := fun k {f} ↦ provided_at hstock hw k (f := f)
      cases shape_of_fits hfs with
      | module hbody hignores => exact runs_module (runsBlock_of_are true _ hbody (hat 0 rfl rfl))
      | classDef hname hbases hkeywords hsome hbody hdecorators =>
        exact runs_classDef (runsAll_of_are _ hdecorators (by decide) (hat 4 rfl rfl))
          (runsAll_of_are _ hbases (by decide) (hat 1 rfl rfl))
          (runsAll_of_are _ hkeywords (by decide) (hat 2 rfl rfl)) (runsBlock_of_are true _ hbody (hat 3 rfl rfl))
      | functionDef hargs hsome hbody hdecorators hreturns hcomment =>
        exact runs_functionDef (hspan rfl) (hne _ rfl) (runsAll_of_are _ hdecorators (by decide) (hat 3 rfl rfl))
          (runsChild_of_isA _ hargs (by decide) (hat 1 rfl rfl)) (runsBlock_of_are true _ hbody (hat 2 rfl rfl))
      | lambda hargs hbody =>
        exact runs_lambda (hspan rfl) (runsChild_of_isA _ hargs (by decide) (hat 0 rfl rfl))
          (runsChild_of_isA _ hbody (by decide) (hat 1 rfl rfl))
      | ifStmt htest hsome hbody horelse =>
        exact runs_ifStmt (hspan rfl) (fun _ hmarks ↦ chainArms_of_inside hmarks i p _ hfs hstocked hinside)
          (runsChain_of_fits i p _ hfs hstock hw)
      | ifExp htest hbody horelse =>
        obtain ⟨hfirst, hsecond⟩ := List.forall_mem_cons.1 hinside.measured
        exact runs_ifExp (hspan rfl) (locate_of_located hbody rfl hfirst)
          (locate_of_located horelse rfl (hsecond _ (List.mem_singleton.2 rfl)))
          (runsChild_of_isA _ htest (by decide) (hat 0 rfl rfl)) (runsChild_of_isA _ hbody (by decide) (hat 1 rfl rfl))
          (runsChild_of_isA _ horelse (by decide) (hat 2 rfl rfl))
      | boolOp hop hsome hvalues =>
        have harms := mapM_of_forall (hne _ rfl) fun n hn ↦
          locate_of_located (isA_of_mem hvalues hn) rfl (hinside.measured n hn)
        exact runs_boolOp (hspan rfl) harms (runsOperands_of_are _ hvalues (hat 1 rfl rfl))
      | matchStmt hsubject hsome hcases =>
        have hlocated := locate_of_located hsubject rfl (hinside.measured _ (List.mem_singleton.2 rfl))
        obtain ⟨hscs, hwcs⟩ := provided_many.1 (hat 1 rfl rfl)
        exact runs_matchStmt (hspan rfl) (hne _ rfl)
          (fun hasDefault ↦ matchArms_of_walkable hasDefault hlocated (hne _ rfl) hcases hscs hwcs)
          (runsChild_of_isA _ hsubject (by decide) (hat 0 rfl rfl)) (runsCases_of_are _ hcases (hat 1 rfl rfl))
      | whileLoop htest hsome hbody horelse =>
        exact runs_whileLoop (hspan rfl) (loopArms_of_measured htest (hne _ rfl) hbody horelse hinside.measured)
          (runsChild_of_isA _ htest (by decide) (hat 0 rfl rfl)) (runsBlock_of_are false _ hbody (hat 1 rfl rfl))
          (runsBlock_of_are false _ horelse (hat 2 rfl rfl))
      | forLoop htarget hiter hsome hbody horelse hcomment =>
        exact runs_forLoop (hspan rfl) (loopArms_of_measured hiter (hne _ rfl) hbody horelse hinside.measured)
          (runsChild_of_isA _ htarget (by decide) (hat 0 rfl rfl))
          (runsChild_of_isA _ hiter (by decide) (hat 1 rfl rfl))
          (runsBlock_of_are false _ hbody (hat 2 rfl rfl)) (runsBlock_of_are false _ horelse (hat 3 rfl rfl))
      | tryStmt hsome hbody hhandlers horelse hfinalbody =>
        exact runs_tryStmt (hspan rfl) (tryArms_of_measured (hne _ rfl) hbody hhandlers hfinalbody hinside.measured)
          (runsBlock_of_are false _ hbody (hat 0 rfl rfl)) (runsHandlers_of_are _ hhandlers (hat 1 rfl rfl))
          (runsBlock_of_are false _ horelse (hat 2 rfl rfl)) (runsBlock_of_are false _ hfinalbody (hat 3 rfl rfl))
      | matchCase => exact runs_plain rfl (runsFields_of_fit _ _ _ hfs (listsStatements_contents _) hstock hw)
      | handler => exact runs_plain rfl (runsFields_of_fit _ _ _ hfs (listsStatements_contents _) hstock hw)
      | plain => exact runs_plain rfl (runsFields_of_fit _ _ _ hfs (listsStatements_contents _) hstock hw)
termination_by n => 2 * sizeOf n
decreasing_by
  all_goals
    subst_vars
    simp only [Node.mk.sizeOf_spec, Field.child.sizeOf_spec, Field.many.sizeOf_spec, List.cons.sizeOf_spec]
    omega

/-- A node that is no statement is met on the way and walked into. -/
theorem runsChild_of_isA {cat : Category} (n : Node) (h : n.isA full cat = true) (hcat : cat ≠ .statement)
    (hn : Provided plan marks (.child n)) : Runs marks (visit plan n) :=
  runs_of_isA n h (provided_child.1 hn).1 (enterable_of_inner h hcat (provided_child.1 hn).2)
termination_by 2 * sizeOf n + 1

theorem runsChain_of_fits (i : NodeId) (p : Place) (fs : List Field)
    (hfs : fieldsFit full (NodeClass.contents .ifStmt) fs = true) (hstock : fieldsStocked fs = true)
    (hw : FieldsWalkable plan marks (NodeClass.fieldNames .ifStmt) fs) : RunsChain plan marks i p fs := by
  cases shape_of_fits hfs with
  | ifStmt htest hsome hbody horelse =>
    have horelse' := provided_at hstock hw 2 rfl rfl
    refine runsChain_cons (runsChild_of_isA _ htest (by decide) (provided_at hstock hw 0 rfl rfl))
      (runsBlock_of_are false _ hbody (provided_at hstock hw 1 rfl rfl)) (runsBlock_of_are false _ horelse horelse') ?_
    rintro marks' j q fs hmarks rfl hnext
    have hlink := (isA_mk.1 (isA_of_mem horelse (List.mem_singleton.2 rfl))).2
    obtain ⟨hstocked, hwalkable⟩ := provided_child.1 (provided_cons.1 horelse').1
    have hinside := inside_of_continues hmarks hnext hwalkable
    exact runsChain_of_fits j q fs hlink (stocked_mk.1 hstocked).2 hinside.fields
termination_by 2 * sizeOf fs

theorem runsBlock_of_are (doc : Bool) : ∀ ns : List Node, nodesAre full false .statement ns = true →
    Provided plan marks (.many ns) → Runs marks (visitBlock plan doc ns)
  | [], _, _ => by
    rw [visitBlock]
    exact .pure trivial
  | s :: rest, h, hp => by
    obtain ⟨hs, hrest⟩ := nodesAre_cons.1 h
    have hs : s.isA full .statement = true := by simpa using hs
    obtain ⟨hps, hprest⟩ := provided_cons.1 hp
    obtain ⟨hstocked, hw⟩ := provided_child.1 hps
    exact runsBlock_cons hs hw (runs_of_isA s hs hstocked) (runsBlock_of_are false rest hrest hprest)
termination_by ns => 2 * sizeOf ns

theorem runsAll_of_are {gaps : Bool} {cat : Category} : ∀ ns : List Node, nodesAre full gaps cat ns = true →
    cat ≠ .statement → Provided plan marks (.many ns) → Runs marks (visitAll plan ns)
  | [], _, _, _ => by
    rw [visitAll]
    exact .pure trivial
  | n :: ns, h, hcat, hp => by
    obtain ⟨hn, hns⟩ := nodesAre_cons.1 h
    obtain ⟨hpn, hpns⟩ := provided_cons.1 hp
    rcases hn with hn | ⟨-, rfl⟩
    · exact runsAll_cons (runsChild_of_isA n hn hcat hpn) (runsAll_of_are ns hns hcat hpns)
    · exact runsAll_cons runs_gap (runsAll_of_are ns hns hcat hpns)
termination_by ns => 2 * sizeOf ns

theorem runsOperands_of_are : ∀ vs : List Node, nodesAre full false .expression vs = true →
    Provided plan marks (.many vs) → ∀ keys, Runs marks (visitOperands plan keys vs)
  | [], _, _, keys => by
    rw [visitOperands]
    · exact .pure trivial
    · simp
  | v :: vs, h, hp, keys => by
    obtain ⟨hv, hvs⟩ := nodesAre_cons.1 h
    have hv : v.isA full .expression = true := by simpa using hv
    obtain ⟨hpv, hpvs⟩ := provided_cons.1 hp
    exact runsOperands_cons (runsChild_of_isA v hv (by decide) hpv) (runsOperands_of_are vs hvs hpvs) keys
termination_by vs => 2 * sizeOf vs

theorem runsCases_of_are : ∀ cs : List Node, nodesAre full false .case cs = true →
    Provided plan marks (.many cs) → ∀ keys, Runs marks (visitCases plan keys cs)
  | [], _, _, keys => by
    rw [visitCases]
    · exact .pure trivial
    · simp
  | .gap :: _, h, _, _ => by simp [nodesAre, Node.isA] at h
  | .mk i c p fs :: rest, h, hp, keys => by
    obtain ⟨hn, hrest⟩ := nodesAre_cons.1 h
    obtain ⟨hc, hfs⟩ := isA_mk.1 (hn.resolve_right (by simp))
    obtain rfl := class_of_category.1 hc
    obtain ⟨hpn, hprest⟩ := provided_cons.1 hp
    obtain ⟨hstocked, hw⟩ := provided_child.1 hpn
    have hat := fun k {f} ↦ provided_at (stocked_mk.1 hstocked).2 (inside_of_clause rfl hw).fields k (f := f)
    cases shape_of_fits hfs with
    | matchCase hpattern hguard hsome hbody =>
      exact runsCases_cons (runsField_of_fits (.optional .expression) _ hguard rfl (hat 1 rfl rfl))
        (runsBlock_of_are false _ hbody (hat 2 rfl rfl)) (runsCases_of_are rest hrest hprest) keys
termination_by cs => 2 * sizeOf cs

theorem runsHandlers_of_are : ∀ hs : List Node, nodesAre full false .handler hs = true →
    Provided plan marks (.many hs) → Runs marks (visitHandlers plan hs)
  | [], _, _ => by
    rw [visitHandlers]
    · exact .pure trivial
    · simp
  | .gap :: _, h, _ => by simp [nodesAre, Node.isA] at h
  | .mk i c p fs :: rest, h, hp => by
    obtain ⟨hn, hrest⟩ := nodesAre_cons.1 h
    obtain ⟨hc, hfs⟩ := isA_mk.1 (hn.resolve_right (by simp))
    obtain rfl := class_of_category.2 hc
    obtain ⟨hpn, hprest⟩ := provided_cons.1 hp
    obtain ⟨hstocked, hw⟩ := provided_child.1 hpn
    have hat := fun k {f} ↦ provided_at (stocked_mk.1 hstocked).2 (inside_of_clause rfl hw).fields k (f := f)
    cases shape_of_fits hfs with
    | handler htype hname hsome hbody =>
      exact runsHandlers_cons (runsField_of_fits (.optional .expression) _ htype rfl (hat 0 rfl rfl))
        (runsBlock_of_are false _ hbody (hat 2 rfl rfl)) (runsHandlers_of_are rest hrest hprest)
termination_by hs => 2 * sizeOf hs

theorem runsFields_of_fit : ∀ (names : List String) (contents : List Content) (fs : List Field),
    fieldsFit full contents fs = true → (∀ content ∈ contents, content.listsStatements = true) →
      fieldsStocked fs = true → FieldsWalkable plan marks names fs → Runs marks (visitFields plan names fs)
  | names, _, [], _, _, _, _ => by
    rw [visitFields]
    · exact .pure trivial
    · simp
  | [], _, _ :: _, _, _, _, _ => by
    rw [visitFields]
    · exact .pure trivial
    · simp
  | _ :: _, [], _ :: _, h, _, _, _ => by simp [fieldsFit] at h
  | name :: names, content :: contents, f :: fs, h, hlists, hstock, hw => by
    rw [fieldsFit, Bool.and_eq_true] at h
    simp only [List.mem_cons, forall_eq_or_imp] at hlists
    refine runsFields_cons (fun hname ↦ ?_)
      (runsFields_of_fit names contents fs h.2 hlists.2 (fieldsStocked_cons.1 hstock).2 (fieldsWalkable_cons.1 hw).2)
    exact runsField_of_fits content f h.1 hlists.1 (provided_at hstock hw 0 rfl (congrArg some hname))
termination_by _ _ fs => 2 * sizeOf fs

/-- A field that fits the grammar is walked without a fault if its places are there. -/
theorem runsField_of_fits (content : Content) : ∀ f : Field, f.fits full content = true →
    content.listsStatements = true → Provided plan marks f → Runs marks (visitField plan f)
  | .child n, h, hlists, hp => by
    obtain ⟨cat, hcat, hn⟩ := isA_of_fits_child h hlists
    rw [visitField]
    exact (runsChild_of_isA n hn hcat hp).within.bind fun _ _ ↦ .pure trivial
  | .many ns, h, hlists, hp => by
    rw [visitField]
    rcases nodesAre_of_fits_many h hlists with ⟨hstarts, hns⟩ | ⟨hstarts, gaps, cat, hcat, hns⟩
    · rw [if_pos hstarts]
      exact (runsBlock_of_are false ns hns hp).within.bind fun _ _ ↦ .pure trivial
    · rw [if_neg (by simp [hstarts])]
      exact (runsAll_of_are ns hns hcat hp).within.bind fun _ _ ↦ .pure trivial
  | .none, _, _, _ | .text _, _, _, _ | .number _, _, _, _ | .constant _, _, _, _ | .names _, _, _, _ => by
    rw [visitField]
    · exact .pure trivial
    all_goals simp
termination_by f => 2 * sizeOf f
end

end Coverage.Pass
