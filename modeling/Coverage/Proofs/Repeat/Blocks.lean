import Coverage.Proofs.Repeat.Rest
import Coverage.Proofs.Syntax.Grammar

/-!
# The blocks of a tree

The blocks that a pass goes through, and what it means that all of them are settled. Expressions and patterns
hold no blocks. The code that a pass adds holds blocks of its own, which are settled as soon as the code is
marked.
-/

namespace Coverage.Syntax

/-- Categories of nodes below which there can be blocks. -/
def Category.holdsBlocks : Category → Bool
  | .root | .statement | .handler | .case => true
  | _ => false

/-- Fields of nodes below which there can be blocks. -/
def Content.holdsBlocks (content : Content) : Bool := content.category?.any Category.holdsBlocks

theorem holdsBlocks_contents {c : NodeClass} (h : c.category.holdsBlocks = false) :
    ∀ content ∈ c.contents, content.holdsBlocks = false := by
  revert h
  cases c with
  | plain c => cases c <;> decide
  | lambda | ifExp | boolOp => decide
  | _ =>
    intro h
    cases h

end Coverage.Syntax

namespace Coverage.Pass

open Syntax

variable {n : Node} {ns : List Node} {docstring : Bool}

section Blocks

variable (plan : Plan) (marks : Marks) (first : NodeId)

/-- Whether a pass leaves a node alone: it is marked, or it is an excluded statement. Code that the pass adds
has identities from `first` on and is not left alone. -/
def leftAlone : Node → Bool
  | .gap => false
  | .mk i c p fs => marks.contains i || (c.isStatement && plan.excludes (.mk i c p fs) && decide (i < first))

mutual
/-- The blocks below a node, apart from those in nodes that are left alone. -/
def blocks : Node → List (List Node)
  | .gap => []
  | .mk i c p fs => if leftAlone plan marks first (.mk i c p fs) then [] else fieldsBlocks fs

def fieldsBlocks : List Field → List (List Node)
  | [] => []
  | f :: fs => fieldBlocks f ++ fieldsBlocks fs

def fieldBlocks : Field → List (List Node)
  | .child n => blocks n
  | .many ns => (if startsBlock ns then [ns] else []) ++ nodesBlocks ns
  | _ => []

def nodesBlocks : List Node → List (List Node)
  | [] => []
  | n :: ns => blocks n ++ nodesBlocks ns
end

end Blocks

variable {plan : Plan} {marks : Marks} {first : NodeId} {final : Marks} {full : Bool}

/-! ## Expressions -/

mutual
theorem blocks_eq_nil {cat : Category} (hcat : cat.holdsBlocks = false) :
    ∀ n : Node, n.isA full cat = true → blocks plan marks first n = []
  | .gap, _ => by rw [blocks]
  | .mk i c p fs, h => by
    obtain ⟨rfl, hfs⟩ := isA_mk.1 h
    rw [blocks, fieldsBlocks_eq_nil c.contents fs hfs (holdsBlocks_contents hcat), ite_self]
termination_by n => sizeOf n

theorem fieldsBlocks_eq_nil :
    ∀ (contents : List Content) (fs : List Field), fieldsFit full contents fs = true →
      (∀ content ∈ contents, content.holdsBlocks = false) →
      fieldsBlocks plan marks first fs = []
  | [], fs, h, _ => by
    rw [fieldsFit_nil.1 h, fieldsBlocks]
  | content :: contents, fs, h, hcontents => by
    obtain ⟨f, rest, rfl, hf, hrest⟩ := fieldsFit_cons.1 h
    rw [fieldsBlocks, fieldBlocks_eq_nil content f hf (hcontents content (by simp)),
      fieldsBlocks_eq_nil contents rest hrest fun content hmem ↦ hcontents content (by simp [hmem])]
    rfl
termination_by _ fs => sizeOf fs

/-- Fields that hold no blocks have none below them. -/
theorem fieldBlocks_eq_nil (content : Content) :
    ∀ f : Field, f.fits full content = true → content.holdsBlocks = false →
      fieldBlocks plan marks first f = []
  | .child n, h, hcontent => by
    rw [fieldBlocks]
    cases content with
    | one cat =>
      obtain ⟨_, heq, hn⟩ := fits_one.1 h
      cases heq
      exact blocks_eq_nil hcontent n hn
    | optional cat =>
      rcases fits_optional.1 h with heq | ⟨_, heq, hn⟩
      · cases heq
      · cases heq
        exact blocks_eq_nil hcontent n hn
    | _ => simp [Field.fits] at h
  | .many ns, h, hcontent => by
    rw [fieldBlocks]
    cases content with
    | atom =>
      obtain rfl : ns = [] := by simpa [Field.fits] using h
      simp [startsBlock, nodesBlocks]
    | list cat nonempty =>
      obtain ⟨_, heq, -, hns⟩ := fits_list.1 h
      cases heq
      have hstatement : cat ≠ .statement := by
        rintro rfl
        cases hcontent
      simp [not_startsBlock_of_are hns hstatement, nodesBlocks_eq_nil hcontent ns hns]
    | gaps cat =>
      obtain ⟨_, heq, hns⟩ := fits_gaps.1 h
      cases heq
      have hstatement : cat ≠ .statement := by
        rintro rfl
        cases hcontent
      simp [not_startsBlock_of_are hns hstatement, nodesBlocks_eq_nil hcontent ns hns]
    | _ => simp [Field.fits] at h
  | .none, _, _ | .text _, _, _ | .number _, _, _ | .constant _, _, _ | .names _, _, _ => by
    rw [fieldBlocks] <;> simp
termination_by f => sizeOf f

theorem nodesBlocks_eq_nil {gaps : Bool} {cat : Category} (hcat : cat.holdsBlocks = false) :
    ∀ ns : List Node, nodesAre full gaps cat ns = true → nodesBlocks plan marks first ns = []
  | [], _ => by rw [nodesBlocks]
  | n :: ns, h => by
    obtain ⟨hn, hns⟩ := nodesAre_cons.1 h
    rw [nodesBlocks, nodesBlocks_eq_nil hcat ns hns, List.append_nil]
    rcases hn with hn | ⟨-, rfl⟩
    · exact blocks_eq_nil hcat n hn
    · rw [blocks]
termination_by ns => sizeOf ns
end

/-! ## Trees whose blocks are settled -/

section Closed

variable (plan marks first final)

/-- The blocks are settled once the nodes `final` are marked. -/
def AllSettled (bs : List (List Node)) : Prop := ∀ b ∈ bs, settled plan final true b = true

def Closed (n : Node) : Prop := AllSettled plan final (blocks plan marks first n)

def ClosedFields (fs : List Field) : Prop := AllSettled plan final (fieldsBlocks plan marks first fs)

def ClosedField (f : Field) : Prop := AllSettled plan final (fieldBlocks plan marks first f)

def ClosedAll (ns : List Node) : Prop := AllSettled plan final (nodesBlocks plan marks first ns)

/-- A block that is settled and holds settled blocks only. -/
structure ClosedBlock (docstring : Bool) (ns : List Node) : Prop where
  settled : settled plan final docstring ns = true
  inner : ClosedAll plan marks first final ns

end Closed

theorem AllSettled.nil : AllSettled plan final [] := by simp [AllSettled]

theorem allSettled_append {bs cs : List (List Node)} :
    AllSettled plan final (bs ++ cs) ↔ AllSettled plan final bs ∧ AllSettled plan final cs := by
  simp [AllSettled, or_imp, forall_and]

theorem closed_gap : Closed plan marks first final .gap := by
  rw [Closed, blocks]
  exact .nil

theorem closed_mk {fs : List Field} (i : NodeId) (c : NodeClass) (p : Place)
    (h : ClosedFields plan marks first final fs) : Closed plan marks first final (.mk i c p fs) := by
  rw [Closed, blocks]
  split
  next => exact .nil
  next => exact h

theorem closed_of_leftAlone (h : leftAlone plan marks first n = true) : Closed plan marks first final n := by
  cases n with
  | gap => exact closed_gap
  | mk i c p fs =>
    rw [Closed, blocks, if_pos h]
    exact .nil

theorem leftAlone_of_holds (held : marks.holds n = true) : leftAlone plan marks first n = true := by
  cases n with
  | gap => cases held
  | mk i c p fs =>
    have held : marks.contains i = true := held
    simp [leftAlone, held]

theorem leftAlone_of_excludes (hstatement : n.isStatement = true) (hexcluded : plan.excludes n = true)
    (hold : Before first n.ids) : leftAlone plan marks first n = true := by
  cases n with
  | gap => cases hstatement
  | mk i c p fs =>
    have hstatement : c.isStatement = true := hstatement
    have hi : i < first := hold i (by simp [Node.ids])
    simp [leftAlone, hstatement, hexcluded, hi]

theorem closedFields_nil : ClosedFields plan marks first final [] := by
  rw [ClosedFields, fieldsBlocks]
  exact .nil

theorem closedFields_cons {f : Field} {fs : List Field} :
    ClosedFields plan marks first final (f :: fs) ↔
      ClosedField plan marks first final f ∧ ClosedFields plan marks first final fs := by
  rw [ClosedFields, fieldsBlocks, allSettled_append]
  rfl

theorem closedField_child : ClosedField plan marks first final (.child n) ↔ Closed plan marks first final n := by
  rw [ClosedField, fieldBlocks]
  rfl

theorem closedField_atom {f : Field} (h : isAtom f = true) : ClosedField plan marks first final f := by
  have hnil : fieldBlocks plan marks first f = [] := by
    cases f with
    | child n => cases h
    | many ns => cases h
    | _ => rw [fieldBlocks] <;> simp
  rw [ClosedField, hnil]
  exact .nil

theorem closedField_many (starts : startsBlock ns = false)
    (h : ClosedAll plan marks first final ns) : ClosedField plan marks first final (.many ns) := by
  rw [ClosedField, fieldBlocks, starts]
  exact h

/-- A closed block closes the field that holds it. -/
theorem ClosedBlock.field (h : ClosedBlock plan marks first final docstring ns) :
    ClosedField plan marks first final (.many ns) := by
  rw [ClosedField, fieldBlocks, allSettled_append]
  refine ⟨?_, h.inner⟩
  split
  next =>
    have hns : Pass.settled plan final true ns = true := by
      cases docstring with
      | true => exact h.settled
      | false => exact settled_of_false true h.settled
    simpa [AllSettled] using hns
  next => exact .nil

theorem closedField_of_fits {content : Content} {f : Field} (h : f.fits full content = true)
    (hcontent : content.holdsBlocks = false) : ClosedField plan marks first final f := by
  rw [ClosedField, fieldBlocks_eq_nil content f h hcontent]
  exact .nil

theorem closed_of_isA {cat : Category} (hcat : cat.holdsBlocks = false) (h : n.isA full cat = true) :
    Closed plan marks first final n := by
  rw [Closed, blocks_eq_nil hcat n h]
  exact .nil

theorem closedField_of_are {gaps : Bool} {cat : Category} (hcat : cat.holdsBlocks = false)
    (h : nodesAre full gaps cat ns = true) : ClosedField plan marks first final (.many ns) := by
  have hstatement : cat ≠ .statement := by
    rintro rfl
    cases hcat
  refine closedField_many (not_startsBlock_of_are h hstatement) ?_
  rw [ClosedAll, nodesBlocks_eq_nil hcat ns h]
  exact .nil

theorem closedAll_nil : ClosedAll plan marks first final [] := by
  rw [ClosedAll, nodesBlocks]
  exact .nil

theorem closedAll_cons : ClosedAll plan marks first final (n :: ns) ↔
      Closed plan marks first final n ∧ ClosedAll plan marks first final ns := by
  rw [ClosedAll, nodesBlocks, allSettled_append]
  rfl

theorem closedAll_append {ms : List Node} : ClosedAll plan marks first final (ns ++ ms) ↔
      ClosedAll plan marks first final ns ∧ ClosedAll plan marks first final ms := by
  induction ns with
  | nil => simp [closedAll_nil]
  | cons n ns ih => rw [List.cons_append, closedAll_cons, closedAll_cons, ih, and_assoc]

theorem closedBlock_nil : ClosedBlock plan marks first final docstring [] :=
  ⟨rfl, closedAll_nil⟩

theorem ClosedBlock.of_false (docstring : Bool) (h : ClosedBlock plan marks first final false ns) :
    ClosedBlock plan marks first final docstring ns :=
  ⟨settled_of_false docstring h.settled, h.inner⟩

/-- A docstring may be passed over, but does not have to be. -/
theorem ClosedBlock.of_and {b : Bool} (docstring : Bool)
    (h : ClosedBlock plan marks first final (docstring && b) ns) :
    ClosedBlock plan marks first final docstring ns := by
  cases docstring with
  | true =>
    cases b with
    | true => exact h
    | false => exact h.of_false true
  | false => exact h

theorem closedBlock_cons (hover : passesOver plan final docstring n = true) (hn : Closed plan marks first final n)
    (hns : ClosedBlock plan marks first final false ns) :
    ClosedBlock plan marks first final docstring (n :: ns) :=
  ⟨settled_cons.2 ⟨hover, hns.settled⟩, closedAll_cons.2 ⟨hn, hns.inner⟩⟩

theorem passesOver_of_holds (docstring : Bool) (h : final.holds n = true) :
    passesOver plan final docstring n = true := by
  simp [passesOver, h]

/-! ## Added code -/

/-- An injected call holds no blocks. -/
theorem closed_call (method : String) (keys : List Key) (place : Place) (i : NodeId) :
    Closed plan marks first final (Probe.call plan method keys place i) := by
  have harguments : ∀ (i : NodeId) (ss : List String), startsBlock (Probe.arguments place i ss) = false ∧
      ClosedAll plan marks first final (Probe.arguments place i ss) := by
    intro i ss
    induction ss generalizing i with
    | nil => exact ⟨rfl, closedAll_nil⟩
    | cons s ss ih =>
      refine ⟨rfl, closedAll_cons.2 ⟨closed_mk _ _ _ ?_, (ih _).2⟩⟩
      exact closedFields_cons.2 ⟨closedField_atom rfl, closedFields_cons.2 ⟨closedField_atom rfl, closedFields_nil⟩⟩
  have hload : ∀ i, Closed plan marks first final (Probe.load i) := fun i ↦ closed_mk _ _ _ closedFields_nil
  refine closed_mk _ _ _ ?_
  simp only [closedFields_cons, closedField_child]
  refine ⟨closed_mk _ _ _ ?_, closedField_many (harguments _ _).1 (harguments _ _).2,
    closedField_many rfl closedAll_nil, closedFields_nil⟩
  simp only [closedFields_cons, closedField_child]
  refine ⟨closed_mk _ _ _ ?_, closedField_atom rfl, hload _, closedFields_nil⟩
  simp only [closedFields_cons, closedField_child]
  exact ⟨closedField_atom rfl, hload _, closedFields_nil⟩

theorem closed_counter (key : Key) (place : Place) (i : NodeId) :
    Closed plan marks first final (Probe.counter plan key place i) := by
  refine closed_mk _ _ _ ?_
  simp only [closedFields_cons, closedField_child]
  exact ⟨closed_call _ _ _ _, closedFields_nil⟩

theorem closed_wrapper {e : Node} (key : Key) (i : NodeId) (he : Closed plan marks first final e) :
    Closed plan marks first final (Probe.wrapper plan key e i) := by
  refine closed_mk _ _ _ ?_
  simp only [closedFields_cons, closedField_child]
  refine ⟨closed_mk _ _ _ closedFields_nil, closedField_many rfl ?_, closedFields_nil⟩
  simp only [closedAll_cons]
  exact ⟨closed_call _ _ _ _, he, closedAll_nil⟩

theorem closed_guard {b : List Node} (ok error : Key) (place : Place) (i : NodeId)
    (hb : ClosedBlock plan marks first final docstring b) :
    Closed plan marks first final (Probe.guard plan ok error place b i) := by
  have hitem : Closed plan marks first final (.mk (i + 1) (.plain .withItem) {}
      [.child (Probe.call plan "guard" [ok, error] place (i + 2)), .none]) := by
    refine closed_mk _ _ _ ?_
    simp only [closedFields_cons, closedField_child]
    exact ⟨closed_call _ _ _ _, closedField_atom rfl, closedFields_nil⟩
  refine closed_mk _ _ _ ?_
  simp only [closedFields_cons]
  exact ⟨closedField_many rfl (closedAll_cons.2 ⟨hitem, closedAll_nil⟩), hb.field, closedField_atom rfl,
    closedFields_nil⟩

/-- The counter in an added case has the third of its identities. -/
theorem closed_fallback {i : NodeId} (key : Key) (place : Place) (held : final.contains (i + 2) = true) :
    Closed plan marks first final (Probe.fallback plan key place i) := by
  have hcounter : ClosedBlock plan marks first final false [Probe.counter plan key place (i + 2)] :=
    closedBlock_cons (passesOver_of_holds false held) (closed_counter _ _ _) closedBlock_nil
  refine closed_mk _ _ _ ?_
  simp only [closedFields_cons, closedField_child]
  refine ⟨closed_mk _ _ _ ?_, closedField_atom rfl, hcounter.field, closedFields_nil⟩
  exact closedFields_cons.2 ⟨closedField_atom rfl, closedFields_cons.2 ⟨closedField_atom rfl, closedFields_nil⟩⟩

/-! ## Filling in places -/

/-- What is left alone is so after places are filled in. -/
theorem leftAlone_fillPlaces {outer : Place} (h : leftAlone plan marks first n = true) :
    leftAlone plan marks first (n.fillPlaces outer) = true := by
  cases n with
  | gap => cases h
  | mk i c p fs =>
    simp only [leftAlone, Bool.or_eq_true, Bool.and_eq_true] at h
    have hkept : plan.excludes (.mk i c p fs) = true → plan.excludes ((Node.mk i c p fs).fillPlaces outer) = true :=
      excludes_fillPlaces
    rw [Node.fillPlaces_mk] at hkept ⊢
    simp only [leftAlone, Bool.or_eq_true, Bool.and_eq_true]
    rcases h with held | ⟨⟨hstatement, hexcluded⟩, hold⟩
    · exact .inl held
    · exact .inr ⟨⟨hstatement, hkept hexcluded⟩, hold⟩

mutual
/-- Filling in places keeps the blocks of a tree settled. -/
theorem Closed.fillPlaces (outer : Place) :
    ∀ n : Node, Closed plan marks first final n → Closed plan marks first final (n.fillPlaces outer)
  | .gap, h => by simpa using h
  | .mk i c p fs, h => by
    by_cases hleft : leftAlone plan marks first (.mk i c p fs) = true
    · exact closed_of_leftAlone (leftAlone_fillPlaces hleft)
    · rw [Closed, blocks, if_neg hleft] at h
      rw [Node.fillPlaces_mk]
      exact closed_mk _ _ _ (ClosedFields.fillFields _ fs h)

theorem ClosedFields.fillFields (outer : Place) :
    ∀ fs : List Field, ClosedFields plan marks first final fs →
      ClosedFields plan marks first final (fillFields outer fs)
  | [], h => by simpa using h
  | f :: fs, h => by
    rw [closedFields_cons] at h
    rw [fillFields_cons, closedFields_cons]
    exact ⟨ClosedField.fillPlaces outer f h.1, ClosedFields.fillFields outer fs h.2⟩

theorem ClosedField.fillPlaces (outer : Place) :
    ∀ f : Field, ClosedField plan marks first final f → ClosedField plan marks first final (f.fillPlaces outer)
  | .child n, h => by
    rw [closedField_child] at h
    exact closedField_child.2 (Closed.fillPlaces outer n h)
  | .many ns, h => by
    rw [ClosedField, fieldBlocks, allSettled_append] at h
    rw [Field.fillPlaces_many, ClosedField, fieldBlocks, allSettled_append, startsBlock_fillNodes]
    refine ⟨?_, ClosedAll.fillNodes outer ns h.2⟩
    split
    next starts =>
      have hns : settled plan final true ns = true := by simpa [starts, AllSettled] using h.1
      simpa [AllSettled] using settled_fillNodes hns
    next => exact .nil
  | .none, h | .text _, h | .number _, h | .constant _, h | .names _, h => h

theorem ClosedAll.fillNodes (outer : Place) :
    ∀ ns : List Node, ClosedAll plan marks first final ns → ClosedAll plan marks first final (fillNodes outer ns)
  | [], h => by simpa using h
  | n :: ns, h => by
    rw [closedAll_cons] at h
    rw [fillNodes_cons, closedAll_cons]
    exact ⟨Closed.fillPlaces outer n h.1, ClosedAll.fillNodes outer ns h.2⟩
end

/-! ## Places in blocks -/

mutual
/-- In the blocks of a tree no place is missing if in the tree there is none. -/
theorem placed_of_mem_blocks {b : List Node} :
    ∀ n : Node, n.placed = true → b ∈ blocks plan marks first n → nodesPlaced b = true
  | .gap, _, hb => by
    rw [blocks] at hb
    cases hb
  | .mk i c p fs, h, hb => by
    rw [blocks] at hb
    split at hb
    next => cases hb
    next => exact placed_of_mem_fieldsBlocks fs (placed_mk.1 h).2 hb

theorem placed_of_mem_fieldsBlocks {b : List Node} :
    ∀ fs : List Field, fieldsPlaced fs = true → b ∈ fieldsBlocks plan marks first fs → nodesPlaced b = true
  | [], _, hb => by
    rw [fieldsBlocks] at hb
    cases hb
  | f :: fs, h, hb => by
    rw [fieldsPlaced_cons] at h
    rw [fieldsBlocks, List.mem_append] at hb
    rcases hb with hb | hb
    · exact placed_of_mem_fieldBlocks f h.1 hb
    · exact placed_of_mem_fieldsBlocks fs h.2 hb

theorem placed_of_mem_fieldBlocks {b : List Node} :
    ∀ f : Field, f.placed = true → b ∈ fieldBlocks plan marks first f → nodesPlaced b = true
  | .child n, h, hb => by
    rw [placed_child] at h
    rw [fieldBlocks] at hb
    exact placed_of_mem_blocks n h hb
  | .many ns, h, hb => by
    rw [placed_many] at h
    rw [fieldBlocks, List.mem_append] at hb
    rcases hb with hb | hb
    · split at hb
      next =>
        rw [List.mem_singleton.1 hb]
        exact h
      next => cases hb
    · exact placed_of_mem_nodesBlocks ns h hb
  | .none, _, hb | .text _, _, hb | .number _, _, hb | .constant _, _, hb | .names _, _, hb => by
    rw [fieldBlocks] at hb
    all_goals simp at *

theorem placed_of_mem_nodesBlocks {b : List Node} :
    ∀ ns : List Node, nodesPlaced ns = true → b ∈ nodesBlocks plan marks first ns → nodesPlaced b = true
  | [], _, hb => by
    rw [nodesBlocks] at hb
    cases hb
  | n :: ns, h, hb => by
    rw [nodesPlaced_cons] at h
    rw [nodesBlocks, List.mem_append] at hb
    rcases hb with hb | hb
    · exact placed_of_mem_blocks n h.1 hb
    · exact placed_of_mem_nodesBlocks ns h.2 hb
end

end Coverage.Pass
