import Mathlib.Logic.Equiv.Defs
import Coverage.Proofs.Sharing.Walk

/-!
# Passes that share their marks

A pass is told which nodes are marked and adds to them. Two passes over trees without a common node can share their
marks: what the first one adds is on nodes that the second one never looks at. So each pass gives what it gives alone,
in both orders, up to the identities of the nodes that are made.
-/

namespace Coverage

open Syntax

/-! ## What a pass leaves -/

/-- The marks after a pass, also after one that was stopped. -/
def marksLeft : Except Stopped Instrumented → Marks
  | .ok i => i.marks
  | .error e => e.marks

/-- The next fresh identity after a pass. -/
def nextLeft : Except Stopped Instrumented → NodeId
  | .ok i => i.next
  | .error e => e.next

/-- Two passes that give the same up to identities, or are stopped by the same fault. -/
def SamePass (ρ : NodeId → NodeId) : Except Stopped Instrumented → Except Stopped Instrumented → Prop
  | .ok i, .ok i' => i'.tree = i.tree.rename ρ ∧ i'.record = i.record ∧ i'.notes = i.notes
  | .error e, .error e' => e'.fault = e.fault ∧ e'.tree = e.tree.rename ρ
  | _, _ => False

theorem Marks.contains_retain (m : Marks) (p : NodeId → Bool) (i : NodeId) :
    (m.retain p).contains i = (m.contains i && p i) := by
  rw [Bool.eq_iff_iff]
  simp [Marks.retain, Marks.contains]

section Check

variable {plan : Plan} {marks marks' : Marks}

mutual
/-- The check only looks at the marks on the tree. -/
theorem checkPlaces_congr : ∀ n : Node, (∀ i ∈ n.ids, marks'.contains i = marks.contains i) →
    checkPlaces plan marks' n = checkPlaces plan marks n
  | .gap, _ => by rw [checkPlaces, checkPlaces]
  | .mk i c p fs, h => by
    rw [Node.ids, List.forall_mem_cons] at h
    rw [checkPlaces, checkPlaces, h.1, checkFields_congr c.fieldNames fs h.2]

theorem checkFields_congr : ∀ (names : List String) (fs : List Field),
    (∀ i ∈ fieldsIds fs, marks'.contains i = marks.contains i) →
    checkFields plan marks' names fs = checkFields plan marks names fs
  | [], _, _ => by rw [checkFields, checkFields] <;> simp
  | _ :: _, [], _ => by rw [checkFields, checkFields] <;> simp
  | name :: names, f :: fs, h => by
    rw [fieldsIds_cons, List.forall_mem_append] at h
    rw [checkFields, checkFields, checkField_congr f h.1, checkFields_congr names fs h.2]

theorem checkField_congr : ∀ f : Field, (∀ i ∈ f.ids, marks'.contains i = marks.contains i) →
    checkField plan marks' f = checkField plan marks f
  | .child n, h => by
    rw [Field.ids_child] at h
    rw [checkField, checkField, checkPlaces_congr n h]
  | .many ns, h => by
    rw [Field.ids_many] at h
    rw [checkField, checkField, checkNodes_congr ns h]
  | .none, _ | .text _, _ | .number _, _ | .constant _, _ | .names _, _ => by rw [checkField, checkField] <;> simp

theorem checkNodes_congr : ∀ ns : List Node, (∀ i ∈ nodesIds ns, marks'.contains i = marks.contains i) →
    checkNodes plan marks' ns = checkNodes plan marks ns
  | [], _ => by rw [checkNodes, checkNodes]
  | n :: ns, h => by
    rw [nodesIds, List.forall_mem_append] at h
    rw [checkNodes, checkNodes, checkPlaces_congr n h.1, checkNodes_congr ns h.2]
end

end Check

namespace Pass

/-- What a pass gives after its walk. -/
def concluded (marks : Marks) : Except (Fault × Node) Node × State → Except Stopped Instrumented
  | (.ok tree, s) => .ok (finish tree s)
  | (.error (fault, left), s) => .error (stopped marks fault left s)

variable {plan : Plan} {marks marks' : Marks} {next : NodeId} {tree : Node}

theorem instrument_of_check (h : checkPlaces plan marks tree = .ok ()) :
    instrument plan marks next tree = concluded marks (outcome (visit plan tree) (start plan marks next)) := by
  rw [instrument, h]
  change _ = concluded marks ((visit plan tree).run (start plan marks next))
  rcases (visit plan tree).run (start plan marks next) with ⟨⟨fault, left⟩ | tree, s⟩ <;> rfl

theorem nextLeft_concluded (marks : Marks) (o : Except (Fault × Node) Node × State) :
    nextLeft (concluded marks o) = o.2.next := by
  obtain ⟨⟨fault, left⟩ | tree, s⟩ := o <;> rfl

theorem contains_marksLeft_concluded (marks : Marks) (o : Except (Fault × Node) Node × State) (i : NodeId) :
    (marksLeft (concluded marks o)).contains i = (o.2.marks.contains i && match o.1 with
      | .ok _ => true
      | .error (_, left) => marks.contains i || left.ids.contains i) := by
  obtain ⟨⟨fault, left⟩ | tree, s⟩ := o
  · exact Marks.contains_retain ..
  · exact (Bool.and_true _).symm

/-! ## One pass -/

/-- What a pass can do to marks: none is lost, and those that are added are on nodes of the tree or on new ones. -/
structure Tidy (marks : Marks) (next : NodeId) (tree : Node) (result : Except Stopped Instrumented) : Prop where
  grows : next ≤ nextLeft result
  kept : marks.Among (marksLeft result)
  added : ∀ i, (marksLeft result).contains i = true →
    marks.contains i = true ∨ i ∈ tree.ids ∨ next ≤ i ∧ i < nextLeft result

/-- A pass marks nodes of its tree and new ones only. -/
theorem tidy_instrument (plan : Plan) (marks : Marks) (next : NodeId) (tree : Node) :
    Tidy marks next tree (instrument plan marks next tree) := by
  cases hcheck : checkPlaces plan marks tree with
  | error cause =>
    rw [instrument, hcheck]
    exact ⟨Nat.le_refl _, fun _ hi ↦ hi, fun _ hi ↦ .inl hi⟩
  | ok _ =>
    have hmoves := moves_visit plan tree (start plan marks next)
    rw [instrument_of_check hcheck]
    generalize outcome (visit plan tree) (start plan marks next) = o at hmoves
    constructor
    case grows => exact nextLeft_concluded marks o ▸ hmoves.next
    case kept =>
      intro i hi
      rw [contains_marksLeft_concluded, hmoves.kept i hi]
      rcases o.1 with ⟨fault, left⟩ | _
      · simp [hi]
      · rfl
    case added =>
      intro i hi
      rw [contains_marksLeft_concluded, Bool.and_eq_true] at hi
      rw [nextLeft_concluded]
      exact hmoves.added i hi.1

namespace Tidy

variable {result : Except Stopped Instrumented}

/-- Marks on other nodes stay as they are. -/
theorem frame (h : Tidy marks next tree result) {i : NodeId} (hi : i ∉ tree.ids)
    (hold : i < next ∨ nextLeft result ≤ i) : (marksLeft result).contains i = marks.contains i := by
  rw [Bool.eq_iff_iff]
  refine ⟨fun hleft ↦ ?_, h.kept i⟩
  rcases h.added i hleft with hmarked | hmem | ⟨hlow, hhigh⟩
  · exact hmarked
  · exact absurd hmem hi
  · rcases hold with hlt | hle
    · exact absurd hlt (Nat.not_lt.2 hlow)
    · exact absurd hhigh (Nat.not_lt.2 hle)

/-- Only nodes that are in use are marked. -/
theorem inUse (h : Tidy marks next tree result) (htree : ∀ i ∈ tree.ids, i < next)
    (hmarks : ∀ i, marks.contains i = true → i < next) (i : NodeId) (hi : (marksLeft result).contains i = true) :
    i < nextLeft result := by
  rcases h.added i hi with hmarked | hmem | hfresh
  · exact Nat.lt_of_lt_of_le (hmarks i hmarked) h.grows
  · exact Nat.lt_of_lt_of_le (htree i hmem) h.grows
  · exact hfresh.2

end Tidy

/-! ## A pass elsewhere -/

/-- The tree and the new nodes are marked alike in both places. -/
theorem contains_rename {r : Relocation} {s s' t t' : State} (ht : Shifted r t t') (hfirst : r.first = s.next)
    (hnext : s'.next = s.next + r.shift) (hlimit : t.next = r.limit) (hmoves : Moves r.own s t)
    (hmoves' : Moves r.own s' t') {i : NodeId} (hi : i ∈ r.own ∨ r.first ≤ i ∧ i < r.limit) :
    t'.marks.contains (r.rename i) = t.marks.contains i := by
  rcases hi with hi | ⟨hlow, hhigh⟩
  · rw [r.old i hi, ht.marks i hi]
  · have hlow' : s'.next ≤ i + r.shift := by
      rw [hnext, ← hfirst]
      exact Nat.add_le_add_right hlow _
    have hhigh' : i + r.shift < t'.next := by
      rw [ht.next, hlimit]
      exact Nat.add_lt_add_right hhigh _
    rw [r.fresh i hlow hhigh, hmoves'.marked _ hlow' hhigh', hmoves.marked i (hfirst ▸ hlow) (hlimit ▸ hhigh)]

/-- With other marks, which are the same on the tree, and from another identity on, a pass does the same. -/
theorem instrument_elsewhere {r : Relocation} (hinj : Function.Injective r.rename) (hown : r.own = tree.ids)
    (hfirst : r.first = next) (hlimit : nextLeft (instrument plan marks next tree) = r.limit)
    (htree : ∀ i ∈ tree.ids, i < next) (hagree : ∀ i ∈ tree.ids, marks'.contains i = marks.contains i)
    (hmarks : ∀ i, marks.contains i = true → i < next)
    (hmarks' : ∀ i, marks'.contains i = true → i < next + r.shift) :
    SamePass r.rename (instrument plan marks next tree) (instrument plan marks' (next + r.shift) tree) ∧
      nextLeft (instrument plan marks' (next + r.shift) tree) =
        nextLeft (instrument plan marks next tree) + r.shift ∧
      ∀ i, i ∈ r.own ∨ r.first ≤ i ∧ i < r.limit →
        (marksLeft (instrument plan marks' (next + r.shift) tree)).contains (r.rename i) =
          (marksLeft (instrument plan marks next tree)).contains i := by
  -- The marks a pass is given are the same on the tree, and there are none on new nodes.
  have hgiven : ∀ i, i ∈ r.own ∨ r.first ≤ i ∧ i < r.limit → marks'.contains (r.rename i) = marks.contains i := by
    rintro i (hi | ⟨hlow, hhigh⟩)
    · rw [r.old i hi, hagree i (hown ▸ hi)]
    · rw [hfirst] at hlow
      have hnot : ¬marks.contains i = true := fun h ↦ Nat.not_lt.2 hlow (hmarks i h)
      have hnot' : ¬marks'.contains (i + r.shift) = true := fun h ↦
        Nat.not_lt.2 (Nat.add_le_add_right hlow _) (hmarks' _ h)
      rw [r.fresh i (hfirst ▸ hlow) hhigh, Bool.eq_false_iff.2 hnot, Bool.eq_false_iff.2 hnot']
  have hcongr : checkPlaces plan marks' tree = checkPlaces plan marks tree := checkPlaces_congr tree hagree
  cases hcheck : checkPlaces plan marks tree with
  | error cause =>
    rw [instrument, instrument, hcongr, hcheck]
    refine ⟨⟨rfl, ?_⟩, rfl, hgiven⟩
    exact (r.rename_node (hown ▸ List.Subset.refl _)).symm
  | ok _ =>
    have hstart : Shifted r (start plan marks next) (start plan marks' (next + r.shift)) :=
      ⟨rfl, rfl, rfl, Nat.le_of_eq hfirst, hown ▸ htree, hown ▸ hagree⟩
    have hmoves := moves_visit plan tree (start plan marks next)
    have hmoves' := moves_visit plan tree (start plan marks' (next + r.shift))
    have hfollows := (@lock plan r tree (hown ▸ List.Subset.refl _)).follows _ _ hstart
    rw [instrument_of_check hcheck, nextLeft_concluded] at hlimit
    rw [instrument_of_check hcheck, instrument_of_check (hcongr.trans hcheck), nextLeft_concluded, nextLeft_concluded]
    generalize outcome (visit plan tree) (start plan marks next) = o at hmoves hfollows hlimit ⊢
    generalize outcome (visit plan tree) (start plan marks' (next + r.shift)) = o' at hmoves' hfollows ⊢
    obtain ⟨hsame, ht⟩ := hfollows (Nat.le_of_eq hlimit)
    have hleft : ∀ i, i ∈ r.own ∨ r.first ≤ i ∧ i < r.limit →
        o'.2.marks.contains (r.rename i) = o.2.marks.contains i :=
      fun i ↦ contains_rename ht hfirst rfl hlimit (hown ▸ hmoves) (hown ▸ hmoves')
    obtain ⟨result, t⟩ := o
    obtain ⟨result', t'⟩ := o'
    subst hsame
    refine ⟨?_, ht.next, fun i hi ↦ ?_⟩
    · obtain ⟨fault, left⟩ | tree' := result
      · exact ⟨rfl, rfl⟩
      · refine ⟨?_, ht.record, ?_⟩
        · exact (rename_fillPlaces _ _ _).symm
        · change t'.notes ++ _ = t.notes ++ _
          rw [ht.record, ht.notes]
    · rw [contains_marksLeft_concluded, contains_marksLeft_concluded, hleft i hi]
      obtain ⟨fault, left⟩ | tree' := result
      · have hids : (left.rename r.rename).ids.contains (r.rename i) = left.ids.contains i := by
          rw [Bool.eq_iff_iff, List.contains_iff_mem, List.contains_iff_mem, ids_rename, List.mem_map_of_injective hinj]
        change (_ && (marks'.contains (r.rename i) || (left.rename r.rename).ids.contains (r.rename i))) = _
        rw [hgiven i hi, hids]
      · rfl

/-! ## Two passes -/

/-- Exchanges `a` identities from `n` on with the next `b`. -/
def exchange (n a b : Nat) : Equiv.Perm NodeId where
  toFun i := if i < n then i else if i < n + a then i + b else if i < n + a + b then i - a else i
  invFun i := if i < n then i else if i < n + b then i + a else if i < n + b + a then i - b else i
  left_inv i := by grind
  right_inv i := by grind

theorem exchange_symm (n a b : Nat) : (exchange n a b).symm = exchange n b a := rfl

theorem exchange_of_lt {n i : Nat} (h : i < n) (a b : Nat) : exchange n a b i = i := if_pos h

theorem exchange_first {n a i : Nat} (h : n ≤ i) (ha : i < n + a) (b : Nat) : exchange n a b i = i + b := by
  change ite _ _ _ = _
  rw [if_neg (Nat.not_lt.2 h), if_pos ha]

theorem exchange_of_le {n a b i : Nat} (h : n + a + b ≤ i) : exchange n a b i = i := by
  change ite _ _ _ = _
  grind

/-- What is exchanged at all is exchanged with one of the first or with one of the next identities. -/
theorem exchange_cases (n a b i : Nat) : (i < n ∨ n + a + b ≤ i) ∨ (n ≤ i ∧ i < n + a) ∨
    n ≤ exchange n a b i ∧ exchange n a b i < n + b := by
  change _ ∨ _ ∨ n ≤ ite _ _ _ ∧ ite _ _ _ < n + b
  grind

/-- The given marks and trees are in use, and the trees have no node in common. -/
structure Apart (marks : Marks) (next : NodeId) (tree tree' : Node) : Prop where
  marks : ∀ i, marks.contains i = true → i < next
  left : ∀ i ∈ tree.ids, i < next
  right : ∀ i ∈ tree'.ids, i < next
  disjoint : tree.ids.Disjoint tree'.ids

theorem Apart.symm {tree tree' : Node} (h : Apart marks next tree tree') : Apart marks next tree' tree :=
  ⟨h.marks, h.right, h.left, fun _ hi hi' ↦ h.disjoint hi' hi⟩

section Two

variable {plan plan' : Plan} {tree tree' : Node}

/-- How many nodes a pass makes. -/
def made (plan : Plan) (marks : Marks) (next : NodeId) (tree : Node) : Nat :=
  nextLeft (instrument plan marks next tree) - next

/-- The pass that comes second does what it does alone. Its new nodes are found behind those of the first one. -/
theorem instrument_second (h : Apart marks next tree tree') :
    let alone := instrument plan marks next tree
    let first := instrument plan' marks next tree'
    let second := instrument plan (marksLeft first) (nextLeft first) tree
    let τ := exchange next (made plan marks next tree) (made plan' marks next tree')
    SamePass τ alone second ∧ nextLeft second = nextLeft alone + made plan' marks next tree' ∧
      ∀ i, i ∈ tree.ids ∨ next ≤ i ∧ i < nextLeft alone →
        (marksLeft second).contains (τ i) = (marksLeft alone).contains i := by
  have htidy := tidy_instrument plan marks next tree
  have htidy' := tidy_instrument plan' marks next tree'
  intro alone first second τ
  have hlimit : next + made plan marks next tree = nextLeft alone := Nat.add_sub_cancel' htidy.grows
  have hnext : next + made plan' marks next tree' = nextLeft first := Nat.add_sub_cancel' htidy'.grows
  let r : Relocation :=
    { own := tree.ids
      first := next
      limit := nextLeft alone
      shift := made plan' marks next tree'
      rename := τ
      old := fun i hi ↦ exchange_of_lt (h.left i hi) _ _
      fresh := fun j hlow hhigh ↦ exchange_first hlow (hlimit ▸ hhigh) _ }
  have helsewhere := @instrument_elsewhere plan marks (marksLeft first) next tree r τ.injective rfl rfl rfl
    h.left (fun i hi ↦ htidy'.frame (h.disjoint hi) (.inl (h.left i hi))) h.marks
    (fun i hi ↦ hnext ▸ htidy'.inUse h.right h.marks i hi)
  rw [show next + r.shift = nextLeft first from hnext] at helsewhere
  exact helsewhere

/-- The pass that comes second leaves the nodes of the first one alone. -/
theorem contains_second (h : Apart marks next tree tree') {i : NodeId}
    (hi : i ∈ tree'.ids ∨ next ≤ i ∧ i < nextLeft (instrument plan' marks next tree')) :
    let first := instrument plan' marks next tree'
    (marksLeft (instrument plan (marksLeft first) (nextLeft first) tree)).contains i =
      (marksLeft first).contains i := by
  intro first
  have hgrows : next ≤ nextLeft first := (tidy_instrument plan' marks next tree').grows
  refine (tidy_instrument plan _ _ tree).frame (fun hmem ↦ ?_) (.inl ?_)
  · rcases hi with hi | ⟨hlow, -⟩
    · exact h.disjoint hmem hi
    · exact Nat.not_lt.2 hlow (h.left i hmem)
  · rcases hi with hi | ⟨-, hhigh⟩
    · exact Nat.lt_of_lt_of_le (h.right i hi) hgrows
    · exact hhigh

/-- Nodes that neither pass has to do with are marked only if they were. -/
theorem contains_of_far (h : Apart marks next tree tree') {i : NodeId} (hi : i ∉ tree.ids) (hi' : i ∉ tree'.ids)
    (hfar : i < next ∨ next + made plan marks next tree + made plan' marks next tree' ≤ i) :
    let first := instrument plan' marks next tree'
    (marksLeft (instrument plan (marksLeft first) (nextLeft first) tree)).contains i = marks.contains i := by
  intro first
  have hfirst := tidy_instrument plan' marks next tree'
  have hlimit : next + made plan marks next tree = nextLeft (instrument plan marks next tree) :=
    Nat.add_sub_cancel' (tidy_instrument plan marks next tree).grows
  have hlimit' : next + made plan' marks next tree' = nextLeft first := Nat.add_sub_cancel' hfirst.grows
  obtain ⟨-, hnext, -⟩ := @instrument_second marks next plan plan' tree tree' h
  rw [(tidy_instrument plan _ _ tree).frame hi, hfirst.frame hi']
  · refine hfar.imp id fun hle ↦ Nat.le_trans ?_ hle
    rw [← hlimit', Nat.add_right_comm]
    exact Nat.le_add_right ..
  · refine hfar.imp (fun hlt ↦ Nat.lt_of_lt_of_le hlt hfirst.grows) fun hle ↦ ?_
    rw [hnext, ← hlimit]
    exact hle

/-- Both orders mark the same nodes, up to the identities of new ones. -/
theorem contains_either_order (h : Apart marks next tree tree') (i : NodeId) :
    let alone := instrument plan marks next tree
    let alone' := instrument plan' marks next tree'
    let second := instrument plan (marksLeft alone') (nextLeft alone') tree
    let second' := instrument plan' (marksLeft alone) (nextLeft alone) tree'
    let τ := exchange next (made plan marks next tree) (made plan' marks next tree')
    (marksLeft second).contains (τ i) = (marksLeft second').contains i := by
  intro alone alone' second second' τ
  obtain ⟨-, -, hmoved⟩ := @instrument_second marks next plan plan' tree tree' h
  obtain ⟨-, -, hmoved'⟩ := @instrument_second marks next plan' plan tree' tree h.symm
  have hlimit : next + made plan marks next tree = nextLeft alone :=
    Nat.add_sub_cancel' (tidy_instrument plan marks next tree).grows
  have hlimit' : next + made plan' marks next tree' = nextLeft alone' :=
    Nat.add_sub_cancel' (tidy_instrument plan' marks next tree').grows
  by_cases hfirst : i ∈ tree.ids ∨ next ≤ i ∧ i < nextLeft alone
  · exact (hmoved i hfirst).trans (contains_second h.symm hfirst).symm
  by_cases hsecond : τ i ∈ tree'.ids ∨ next ≤ τ i ∧ τ i < nextLeft alone'
  · have hback := hmoved' (τ i) hsecond
    rw [← exchange_symm, Equiv.symm_apply_apply] at hback
    exact (contains_second h hsecond).trans hback.symm
  rw [not_or] at hfirst hsecond
  rcases exchange_cases next (made plan marks next tree) (made plan' marks next tree') i with hfar | hnew | hnew
  · have hfixed : τ i = i := hfar.elim (fun hlt ↦ exchange_of_lt hlt _ _) exchange_of_le
    rw [hfixed] at hsecond ⊢
    have hfar' := hfar
    rw [Nat.add_right_comm] at hfar'
    rw [contains_of_far h hfirst.1 hsecond.1 hfar, contains_of_far h.symm hsecond.1 hfirst.1 hfar']
  · rw [hlimit] at hnew
    exact absurd hnew hfirst.2
  · rw [hlimit'] at hnew
    exact absurd hnew hsecond.2

end Two

/-- Passes over two trees that share their marks do not depend on each other: in either order each gives what it gives
alone and leaves the same marks, up to the identities of the nodes that it makes. No pass takes a mark away, and it
only marks nodes of its own tree and those that it makes. -/
theorem shared_marks_keep_apart {marks : Marks} {next : NodeId} {tree tree' : Node} (plan plan' : Plan)
    (h : Apart marks next tree tree') :
    let alone := instrument plan marks next tree
    let alone' := instrument plan' marks next tree'
    let second := instrument plan (marksLeft alone') (nextLeft alone') tree
    let second' := instrument plan' (marksLeft alone) (nextLeft alone) tree'
    (∃ τ : Equiv.Perm NodeId, (∀ i < next, τ i = i) ∧ SamePass τ alone second ∧ SamePass τ.symm alone' second' ∧
      ∀ i, (marksLeft second).contains (τ i) = (marksLeft second').contains i) ∧
    ∀ (plan : Plan) (marks : Marks) (next : NodeId) (tree : Node),
      Tidy marks next tree (instrument plan marks next tree) := by
  refine ⟨⟨exchange next (made plan marks next tree) (made plan' marks next tree'), ?_, ?_, ?_, ?_⟩, tidy_instrument⟩
  · exact fun i hi ↦ exchange_of_lt hi _ _
  · exact (instrument_second h).1
  · exact (instrument_second h.symm).1
  · exact contains_either_order h

/-- A module whose only statement does nothing. -/
def idleModule : Node := .mk 0 .module {} [.many [.mk 1 (.plain .pass) (placeAt 1 0) []], .many []]

/-- A module with a statement and a `match` without cases, which stops a pass. -/
def caselessModule : Node :=
  .mk 2 .module {} [.many
    [.mk 3 (.plain .pass) (placeAt 1 0) [],
      .mk 4 .matchStmt (placeAt 2 0)
        [.child (.mk 5 (.plain .constant) (placeAt 2 6) [.constant .none, .none]), .many []]],
    .many []]

/-- A tree without faults and one with a fault. -/
theorem shared_marks_keep_apart_caselessModule :
    let plan : Plan := { filename := "a.py" }
    let plan' : Plan := { filename := "b.py" }
    let alone := instrument plan {} 6 idleModule
    let alone' := instrument plan' {} 6 caselessModule
    let second := instrument plan (marksLeft alone') (nextLeft alone') idleModule
    let second' := instrument plan' (marksLeft alone) (nextLeft alone) caselessModule
    alone.toBool = true ∧ alone'.toBool = false ∧ nextLeft alone' ≠ 6 ∧
      ∃ τ : Equiv.Perm NodeId, (∀ i < 6, τ i = i) ∧ SamePass τ alone second ∧ SamePass τ.symm alone' second' ∧
        ∀ i, (marksLeft second).contains (τ i) = (marksLeft second').contains i := by
  have hdisjoint : ∀ i ∈ idleModule.ids, i ∉ caselessModule.ids := by decide
  have hapart : Apart {} 6 idleModule caselessModule := ⟨nofun, by decide, by decide, fun i hi hi' ↦ hdisjoint i hi hi'⟩
  exact ⟨by decide +kernel, by decide +kernel, by decide +kernel, (shared_marks_keep_apart _ _ hapart).1⟩

end Pass

end Coverage
