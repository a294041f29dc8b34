import Coverage.Proofs.Pass.Walk
import Coverage.Proofs.Syntax.Places

/-!
# Erasure

Taking the injected nodes out of an instrumented tree gives back the tree that was instrumented: the same
nodes with the same classes and fields in the same order. A node that had a line or a column keeps it;
numbers that were missing may have been filled in.
-/

namespace Coverage.Syntax

/-! ## Taking out nodes -/

mutual
/-- The tree without the nodes whose identities start at `first`. Of an expression that is counted before it
is evaluated, the expression is left. -/
def Node.erase (first : NodeId) : Node → Node
  | .gap => .gap
  | .mk i c p fs =>
    match decide (first ≤ i), c, fs with
    | true, .boolOp, [_, .many [_, e]] => e.erase first
    | _, c, fs => .mk i c p (eraseFields first fs)

def Field.erase (first : NodeId) : Field → Field
  | .child n => .child (n.erase first)
  | .many ns => .many (eraseNodes first ns)
  | f => f

def eraseFields (first : NodeId) : List Field → List Field
  | [] => []
  | f :: fs => f.erase first :: eraseFields first fs

/-- What is left of a node in a list: of counters and added cases nothing, of a guarded block the block. -/
def Node.remains (first : NodeId) : Node → List Node
  | .gap => [.gap]
  | .mk i c p fs =>
    match decide (first ≤ i), c, fs with
    | true, .plain .exprStmt, _ => []
    | true, .matchCase, _ => []
    | true, .plain .withStmt, [_, .many body, _] => eraseNodes first body
    | true, .boolOp, [_, .many [_, e]] => [e.erase first]
    | _, c, fs => [.mk i c p (eraseFields first fs)]

def eraseNodes (first : NodeId) : List Node → List Node
  | [] => []
  | n :: ns => n.remains first ++ eraseNodes first ns
end

section Old

variable {first i : NodeId} {c : NodeClass} {p : Place} {fs : List Field}

theorem Node.erase_old (h : i < first) : (Node.mk i c p fs).erase first = .mk i c p (eraseFields first fs) := by
  have hi : decide (first ≤ i) = false := by simpa using h
  unfold Node.erase
  rw [hi]

theorem Node.remains_old (h : i < first) :
    (Node.mk i c p fs).remains first = [.mk i c p (eraseFields first fs)] := by
  have hi : decide (first ≤ i) = false := by simpa using h
  unfold Node.remains
  rw [hi]

end Old

theorem eraseNodes_append (first : NodeId) (ns ms : List Node) :
    eraseNodes first (ns ++ ms) = eraseNodes first ns ++ eraseNodes first ms := by
  induction ns with
  | nil => simp [eraseNodes]
  | cons n ns ih => simp [eraseNodes, ih]

mutual
/-- A tree without injected nodes is left as it is. -/
theorem Node.erase_eq_self {first : NodeId} : ∀ n : Node, Before first n.ids → n.erase first = n
  | .gap, _ => by rw [Node.erase]
  | .mk i c p fs, h => by
    rw [Node.ids, before_cons] at h
    rw [Node.erase_old h.1, eraseFields_eq_self fs h.2]

theorem Field.erase_eq_self {first : NodeId} : ∀ f : Field, Before first f.ids → f.erase first = f
  | .child n, h => by
    rw [Field.ids_child] at h
    rw [Field.erase, Node.erase_eq_self n h]
  | .many ns, h => by
    rw [Field.ids_many] at h
    rw [Field.erase, eraseNodes_eq_self ns h]
  | .none, _ | .text _, _ | .number _, _ | .constant _, _ | .names _, _ => by rw [Field.erase] <;> simp

theorem eraseFields_eq_self {first : NodeId} : ∀ fs : List Field, Before first (fieldsIds fs) →
    eraseFields first fs = fs
  | [], _ => by rw [eraseFields]
  | f :: fs, h => by
    rw [fieldsIds_cons, before_append] at h
    rw [eraseFields, Field.erase_eq_self f h.1, eraseFields_eq_self fs h.2]

theorem eraseNodes_eq_self {first : NodeId} : ∀ ns : List Node, Before first (nodesIds ns) →
    eraseNodes first ns = ns
  | [], _ => by rw [eraseNodes]
  | .gap :: ns, h => by
    rw [nodesIds, before_append] at h
    rw [eraseNodes, Node.remains, eraseNodes_eq_self ns h.2]
    rfl
  | .mk i c p fs :: ns, h => by
    rw [nodesIds, before_append, Node.ids, before_cons] at h
    rw [eraseNodes, Node.remains_old h.1.1, eraseFields_eq_self fs h.1.2, eraseNodes_eq_self ns h.2]
    rfl
end

theorem Node.remains_eq_self {first : NodeId} (n : Node) (h : Before first n.ids) : n.remains first = [n] := by
  have hlist : eraseNodes first [n] = [n] := eraseNodes_eq_self [n] (by simpa [nodesIds] using h)
  simpa [eraseNodes] using hlist

/-! ## Filled places -/

/-- The second place has the numbers of the first, and may have others where the first has none. -/
structure Place.Filled (p p' : Place) : Prop where
  line : ∀ x, p.line = some x → p'.line = some x
  column : ∀ x, p.column = some x → p'.column = some x
  endLine : ∀ x, p.endLine = some x → p'.endLine = some x
  endColumn : ∀ x, p.endColumn = some x → p'.endColumn = some x

theorem Place.filled_fill (p outer : Place) : p.Filled (p.fill outer) where
  line x h := by simp [fill, h]
  column x h := by simp [fill, h]
  endLine x h := by simp [fill, h]
  endColumn x h := by simp [fill, h]

mutual
/-- The second tree is the first with missing numbers filled in. Nodes that cannot carry a place are not
given one. -/
inductive Node.Filled : Node → Node → Prop
  | gap : Node.Filled .gap .gap
  | mk {i c p p' fs fs'} (place : p.Filled p') (bare : c.role.placeable = false → p' = p)
    (fields : FieldsFilled fs fs') : Node.Filled (.mk i c p fs) (.mk i c p' fs')

inductive Field.Filled : Field → Field → Prop
  | child {n n'} (hn : n.Filled n') : Field.Filled (.child n) (.child n')
  | many {ns ns'} (hns : NodesFilled ns ns') : Field.Filled (.many ns) (.many ns')
  | atom {f} (holdsNone : Pass.isAtom f = true) : Field.Filled f f

inductive FieldsFilled : List Field → List Field → Prop
  | nil : FieldsFilled [] []
  | cons {f f' fs fs'} (hf : f.Filled f') (hfs : FieldsFilled fs fs') : FieldsFilled (f :: fs) (f' :: fs')

inductive NodesFilled : List Node → List Node → Prop
  | nil : NodesFilled [] []
  | cons {n n' ns ns'} (hn : n.Filled n') (hns : NodesFilled ns ns') : NodesFilled (n :: ns) (n' :: ns')
end

mutual
theorem Node.filled_fillPlaces (outer : Place) : ∀ n : Node, n.Filled (n.fillPlaces outer)
  | .gap => by
    rw [Node.fillPlaces]
    exact .gap
  | .mk i c p fs => by
    rw [Node.fillPlaces]
    split
    next h => exact .mk (p.filled_fill outer) (by simp [h]) (filled_fillFields _ fs)
    next => exact .mk ⟨fun _ h ↦ h, fun _ h ↦ h, fun _ h ↦ h, fun _ h ↦ h⟩ (fun _ ↦ rfl) (filled_fillFields _ fs)

theorem filled_fillFields (outer : Place) : ∀ fs : List Field, FieldsFilled fs (fillFields outer fs)
  | [] => .nil
  | .child n :: fs => .cons (.child (n.filled_fillPlaces outer)) (filled_fillFields outer fs)
  | .many ns :: fs => .cons (.many (filled_fillNodes outer ns)) (filled_fillFields outer fs)
  | .none :: fs | .text _ :: fs | .number _ :: fs | .constant _ :: fs | .names _ :: fs =>
    .cons (.atom rfl) (filled_fillFields outer fs)

theorem filled_fillNodes (outer : Place) : ∀ ns : List Node, NodesFilled ns (fillNodes outer ns)
  | [] => .nil
  | n :: ns => .cons (n.filled_fillPlaces outer) (filled_fillNodes outer ns)
end

theorem NodesFilled.append {ns ns' ms ms' : List Node} (h : NodesFilled ns ns') (h' : NodesFilled ms ms') :
    NodesFilled (ns ++ ms) (ns' ++ ms') := by
  induction ns generalizing ns' with
  | nil =>
    cases h
    exact h'
  | cons n ns ih =>
    cases h with
    | cons hn hns => exact .cons hn (ih hns)

theorem Field.Filled.many_left {ns : List Node} {f' : Field} (h : (Field.many ns).Filled f') :
    ∃ ns', f' = .many ns' ∧ NodesFilled ns ns' := by
  cases h with
  | many hns => exact ⟨_, rfl, hns⟩
  | atom h => cases h

theorem Field.Filled.many_right {f : Field} {ns' : List Node} (h : f.Filled (.many ns')) :
    ∃ ns, f = .many ns ∧ NodesFilled ns ns' := by
  cases h with
  | many hns => exact ⟨_, rfl, hns⟩
  | atom h => cases h

mutual
/-- Taking out nodes does not depend on places. -/
theorem Node.Filled.erase (first : NodeId) {n n' : Node} (h : n.Filled n') :
    (n.erase first).Filled (n'.erase first) := by
  cases h with
  | gap =>
    rw [Node.erase]
    exact .gap
  | mk place bare fields =>
    unfold Node.erase
    split
    next fresh =>
      obtain _ | ⟨-, _ | ⟨hvalues, _ | _⟩⟩ := fields
      obtain ⟨_, rfl, hnodes⟩ := hvalues.many_left
      obtain _ | ⟨-, _ | ⟨he, _ | _⟩⟩ := hnodes
      simp only [fresh]
      exact he.erase first
    next hother =>
      split
      next fresh =>
        obtain _ | ⟨-, _ | ⟨hvalues, _ | _⟩⟩ := fields
        obtain ⟨_, rfl, hnodes⟩ := hvalues.many_right
        obtain _ | ⟨-, _ | ⟨he, _ | _⟩⟩ := hnodes
        exact absurd rfl (hother _ _ _ fresh rfl)
      next => exact .mk place bare (fields.erase first)
termination_by sizeOf n

theorem Field.Filled.erase (first : NodeId) {f f' : Field} (h : f.Filled f') :
    (f.erase first).Filled (f'.erase first) := by
  cases h with
  | child hn => exact .child (hn.erase first)
  | many hns => exact .many (hns.erase first)
  | atom h =>
    cases f with
    | child n => cases h
    | many ns => cases h
    | _ => exact .atom rfl
termination_by sizeOf f

theorem FieldsFilled.erase (first : NodeId) {fs fs' : List Field} (h : FieldsFilled fs fs') :
    FieldsFilled (eraseFields first fs) (eraseFields first fs') := by
  cases h with
  | nil => exact .nil
  | cons hf hfs => exact .cons (hf.erase first) (hfs.erase first)
termination_by sizeOf fs

/-- What remains of two trees differs in the same places as the trees. -/
theorem Node.Filled.remains (first : NodeId) {n n' : Node} (h : n.Filled n') :
    NodesFilled (n.remains first) (n'.remains first) := by
  cases h with
  | gap =>
    rw [Node.remains]
    exact .cons .gap .nil
  | mk place bare fields =>
    unfold Node.remains
    split
    next fresh =>
      simp only [fresh]
      exact .nil
    next fresh =>
      simp only [fresh]
      exact .nil
    next fresh =>
      obtain _ | ⟨-, _ | ⟨hbody, _ | ⟨-, _ | _⟩⟩⟩ := fields
      obtain ⟨_, rfl, hnodes⟩ := hbody.many_left
      simp only [fresh]
      exact hnodes.erase first
    next fresh =>
      obtain _ | ⟨-, _ | ⟨hvalues, _ | _⟩⟩ := fields
      obtain ⟨_, rfl, hnodes⟩ := hvalues.many_left
      obtain _ | ⟨-, _ | ⟨he, _ | _⟩⟩ := hnodes
      simp only [fresh]
      exact .cons (he.erase first) .nil
    next hcounter hcase hguard hwrapper =>
      split
      next fresh => exact absurd rfl (hcounter fresh)
      next fresh => exact absurd rfl (hcase fresh)
      next fresh =>
        obtain _ | ⟨-, _ | ⟨hbody, _ | ⟨-, _ | _⟩⟩⟩ := fields
        obtain ⟨_, rfl, hnodes⟩ := hbody.many_right
        exact absurd rfl (hguard _ _ _ fresh rfl)
      next fresh =>
        obtain _ | ⟨-, _ | ⟨hvalues, _ | _⟩⟩ := fields
        obtain ⟨_, rfl, hnodes⟩ := hvalues.many_right
        obtain _ | ⟨-, _ | ⟨he, _ | _⟩⟩ := hnodes
        exact absurd rfl (hwrapper _ _ _ fresh rfl)
      next => exact .cons (.mk place bare (fields.erase first)) .nil
termination_by sizeOf n

theorem NodesFilled.erase (first : NodeId) {ns ns' : List Node} (h : NodesFilled ns ns') :
    NodesFilled (eraseNodes first ns) (eraseNodes first ns') := by
  cases h with
  | nil => exact .nil
  | cons hn hns => exact (hn.remains first).append (hns.erase first)
termination_by sizeOf ns
end

end Coverage.Syntax

namespace Coverage.Pass

open Syntax Program

variable {plan : Plan} {marks : Marks} {first : NodeId} {final : Marks}
variable {key : Option Key}

/-! ## Taking out probes -/

section Probes

variable {j : NodeId} (fresh : first ≤ j)

include fresh

theorem remains_counter (key : Key) (place : Place) : (Probe.counter plan key place j).remains first = [] := by
  have hj : decide (first ≤ j) = true := by simpa using fresh
  unfold Probe.counter Node.remains
  rw [hj]

theorem remains_fallback (key : Key) (place : Place) : (Probe.fallback plan key place j).remains first = [] := by
  have hj : decide (first ≤ j) = true := by simpa using fresh
  unfold Probe.fallback Node.remains
  rw [hj]

theorem remains_guard (ok error : Key) (place : Place) (body : List Node) :
    (Probe.guard plan ok error place body j).remains first = eraseNodes first body := by
  have hj : decide (first ≤ j) = true := by simpa using fresh
  unfold Probe.guard Node.remains
  rw [hj]

theorem erase_wrapper (key : Key) (e : Node) : (Probe.wrapper plan key e j).erase first = e.erase first := by
  have hj : decide (first ≤ j) = true := by simpa using fresh
  unfold Probe.wrapper
  rw [Node.erase.eq_def]
  simp only
  rw [hj]

theorem remains_wrapper (key : Key) (e : Node) : (Probe.wrapper plan key e j).remains first = [e.erase first] := by
  have hj : decide (first ≤ j) = true := by simpa using fresh
  unfold Probe.wrapper Node.remains
  rw [hj]

end Probes

theorem Counted.erase {place : Place} {b b' : List Node}
    (h : Counted plan first final key place b b') : eraseNodes first b' = eraseNodes first b := by
  cases h with
  | bare => rfl
  | front fresh => rw [eraseNodes, remains_counter fresh.le, List.nil_append]

theorem Entered.erase {doc : Bool} {b b' : List Node}
    (h : Entered plan first final key doc b b') : eraseNodes first b' = eraseNodes first b := by
  cases h with
  | bare => rfl
  | front fresh => rw [eraseNodes, remains_counter fresh.le, List.nil_append]
  | behind fresh => simp only [eraseNodes, remains_counter fresh.le, List.nil_append]
  | last fresh => simp only [eraseNodes, remains_counter fresh.le, List.append_nil]

theorem Guarded.erase {k₀ k₁ : Option Key} {b b' : List Node}
    (h : Guarded plan first final k₀ k₁ b b') : eraseNodes first b' = eraseNodes first b := by
  cases h with
  | bare => rfl
  | guarded fresh => rw [eraseNodes, remains_guard fresh.le, eraseNodes, List.append_nil]

theorem Completed.erase {place : Place} {cs cs' : List Node}
    (h : Completed plan first final key place cs cs') : eraseNodes first cs' = eraseNodes first cs := by
  cases h with
  | bare => rfl
  | fallback fresh => simp only [eraseNodes_append, eraseNodes, remains_fallback fresh.le, List.append_nil]

/-- A wrapper is erased down to its expression. -/
theorem Wrapped.erase {e e' : Node} (h : Wrapped plan first final key e e') : e'.erase first = e.erase first := by
  cases h with
  | bare => rfl
  | wrapped fresh => exact erase_wrapper fresh.le ..

theorem Wrapped.remains {e e' : Node} (h : Wrapped plan first final key e e')
    (he : e.remains first = [e.erase first]) : e'.remains first = [e.erase first] := by
  cases h with
  | bare => exact he
  | wrapped fresh => exact remains_wrapper fresh.le ..

/-! ## Woven trees -/

/-- A woven node is no probe, so taking out the probes of a list leaves a node in its place. -/
theorem Woven.remains {n n' : Node} {t : List Tag} (h : Woven plan marks first final n t n')
    (old : Before first n.ids) : n'.remains first = [n'.erase first] := by
  have hold : ∀ {i c p fs fs'}, Before first (Node.mk i c p fs).ids →
      (Node.mk i c p fs').remains first = [(Node.mk i c p fs').erase first] := by
    intro i c p fs fs' h
    rw [Node.ids, before_cons] at h
    rw [Node.remains_old h.1, Node.erase_old h.1]
  cases h with
  | gap => rw [Node.remains, Node.erase]
  | ifStmt _ chain => cases chain <;> exact hold old
  | _ => exact hold old

mutual
/-- Erasing what was put in gives the tree back. -/
theorem Woven.erase {n n' : Node} {t : List Tag} : Woven plan marks first final n t n' → Before first n.ids →
    n'.erase first = n
  | .gap, _ => by rw [Node.erase]
  | .marked _ _, old => Node.erase_eq_self _ old
  | .module _ hb _, old => by
    simp only [Node.ids, fieldsIds_cons, Field.ids_many, before_cons, before_append] at old
    obtain ⟨hi, hbody, hignores, -⟩ := old
    simp only [Node.erase_old hi, eraseFields, Field.erase, hb.erase hbody, Field.erase_eq_self _ hignores]
  | .classDef _ hds hbs hks hb _, old => by
    simp only [Node.ids, fieldsIds_cons, Field.ids_many, before_cons, before_append] at old
    obtain ⟨hi, hname, hbases, hkeywords, hbody, hdecorators, -⟩ := old
    simp only [Node.erase_old hi, eraseFields, Field.erase, hb.erase hbody, hds.erase hdecorators,
      hbs.erase hbases, hks.erase hkeywords, Field.erase_eq_self _ hname]
  | .functionDef _ hds ha hb entry _, old => by
    simp only [Node.ids, fieldsIds_cons, Field.ids_child, Field.ids_many, before_cons, before_append] at old
    obtain ⟨hi, -, hargs, hbody, hdecorators, hreturns, hcomment, -⟩ := old
    simp only [Node.erase_old hi, eraseFields, Field.erase, entry.erase, hb.erase hbody,
      hds.erase hdecorators, ha.erase hargs, Field.erase_eq_self _ hreturns, Field.erase_eq_self _ hcomment]
  | .lambda _ ha hb entry, old => by
    simp only [Node.ids, fieldsIds_cons, Field.ids_child, before_cons, before_append] at old
    obtain ⟨hi, hargs, hbody, -⟩ := old
    simp only [Node.erase_old hi, eraseFields, Field.erase, entry.erase, ha.erase hargs, hb.erase hbody]
  | .ifStmt _ chain, old => chain.erase old
  | .ifExp _ ht hb ho arm₀ arm₁, old => by
    simp only [Node.ids, fieldsIds_cons, Field.ids_child, before_cons, before_append] at old
    obtain ⟨hi, htest, hbody, horelse, -⟩ := old
    simp only [Node.erase_old hi, eraseFields, Field.erase, arm₀.erase, arm₁.erase, ht.erase htest,
      hb.erase hbody, ho.erase horelse]
  | .boolOp _ hvs _, old => by
    simp only [Node.ids, fieldsIds_cons, Field.ids_many, before_cons, before_append] at old
    obtain ⟨hi, hop, hvalues, -⟩ := old
    simp only [Node.erase_old hi, eraseFields, Field.erase, hvs.erase hvalues, Field.erase_eq_self _ hop]
  | .matchStmt _ hs hcs rest _, old => by
    simp only [Node.ids, fieldsIds_cons, Field.ids_child, Field.ids_many, before_cons, before_append] at old
    obtain ⟨hi, hsubject, hcases, -⟩ := old
    simp only [Node.erase_old hi, eraseFields, Field.erase, rest.erase, hs.erase hsubject, hcs.erase hcases]
  | .whileLoop _ ht hb arm₀ ho arm₁, old => by
    simp only [Node.ids, fieldsIds_cons, Field.ids_child, Field.ids_many, before_cons, before_append] at old
    obtain ⟨hi, htest, hbody, horelse, -⟩ := old
    simp only [Node.erase_old hi, eraseFields, Field.erase, arm₀.erase, arm₁.erase, ht.erase htest,
      hb.erase hbody, ho.erase horelse]
  | .forLoop _ ht hs hb arm₀ ho arm₁ _, old => by
    simp only [Node.ids, fieldsIds_cons, Field.ids_child, Field.ids_many, before_cons, before_append] at old
    obtain ⟨hi, htarget, hiter, hbody, horelse, hcomment, -⟩ := old
    simp only [Node.erase_old hi, eraseFields, Field.erase, arm₀.erase, arm₁.erase, ht.erase htarget,
      hs.erase hiter, hb.erase hbody, ho.erase horelse, Field.erase_eq_self _ hcomment]
  | .tryStmt _ hb hh ho hf arms, old => by
    simp only [Node.ids, fieldsIds_cons, Field.ids_many, before_cons, before_append] at old
    obtain ⟨hi, hbody, hhandlers, horelse, hfinal, -⟩ := old
    simp only [Node.erase_old hi, eraseFields, Field.erase, arms.erase, hb.erase hbody, hh.erase hhandlers,
      ho.erase horelse, hf.erase hfinal]
  | .plain _ _ hfs, old => by
    rw [Node.ids, before_cons] at old
    rw [Node.erase_old old.1, hfs.erase old.2]

theorem WovenChain.erase {i : NodeId} {p : Place} {arms t : List Tag} {fs : List Field} {n' : Node} :
    WovenChain plan marks first final i p arms fs t n' → Before first (i :: fieldsIds fs) →
      n'.erase first = .mk i .ifStmt p fs
  | .last _ ht hb arm₀ ho arm₁, old => by
    simp only [fieldsIds_cons, Field.ids_child, Field.ids_many, before_cons, before_append] at old
    obtain ⟨hi, htest, hbody, horelse, -⟩ := old
    simp only [Node.erase_old hi, eraseFields, Field.erase, arm₀.erase, arm₁.erase, ht.erase htest,
      hb.erase hbody, ho.erase horelse]
  | .link _ walked ht hb arm next, old => by
    simp only [fieldsIds_cons, Field.ids_child, Field.ids_many, nodesIds, before_cons, before_append] at old
    obtain ⟨hi, htest, hbody, ⟨hnext, -⟩, -⟩ := old
    have hnode := Woven.remains (.ifStmt (free_of_not_passesOver walked) next) hnext
    simp only [Node.erase_old hi, eraseFields, Field.erase, arm.erase, ht.erase htest, hb.erase hbody,
      eraseNodes, hnode, next.erase hnext, List.append_nil]
  | .other _ _, old => Node.erase_eq_self _ old

theorem WovenBlock.erase {doc : Bool} {body b : List Node} {t : List Tag} :
    WovenBlock plan marks first final doc body t b → Before first (nodesIds body) → eraseNodes first b = body
  | .nil, _ => by rw [eraseNodes]
  | .skip _ _ hrest, old => by
    rw [nodesIds, before_append] at old
    rw [eraseNodes, hrest.erase old.2, Node.remains_eq_self _ old.1]
    rfl
  | .gap hrest, old => by
    rw [nodesIds, before_append] at old
    rw [eraseNodes, Node.remains, hrest.erase old.2]
    rfl
  | .stmt _ _ hs hrest counted, old => by
    rw [nodesIds, before_append] at old
    rw [counted.erase, eraseNodes, hs.remains old.1, hs.erase old.1, hrest.erase old.2]
    rfl

theorem WovenOperands.erase {keys : List (Option Key)} {vs ws : List Node} {t : List Tag} :
    WovenOperands plan marks first final keys vs t ws → Before first (nodesIds vs) → eraseNodes first ws = vs
  | .nil, _ => by rw [eraseNodes]
  | .cons hv arm hvs, old => by
    rw [nodesIds, before_append] at old
    rw [eraseNodes, arm.remains (hv.remains old.1), hv.erase old.1, hvs.erase old.2]
    rfl

theorem WovenCases.erase {keys : List (Option Key)} {cs cs' : List Node} {t : List Tag} :
    WovenCases plan marks first final keys cs t cs' → Before first (nodesIds cs) → eraseNodes first cs' = cs
  | .nil, _ => by rw [eraseNodes]
  | .cons _ hg hb arm hrest, old => by
    simp only [nodesIds, Node.ids, fieldsIds_cons, Field.ids_child, Field.ids_many, before_cons, before_append]
      at old
    obtain ⟨⟨hi, hpattern, hguard, hbody, -⟩, hold⟩ := old
    simp only [eraseNodes, Node.remains_old hi, eraseFields, Field.erase, arm.erase, hb.erase hbody,
      hg.erase hguard, Node.erase_eq_self _ hpattern, hrest.erase hold, List.singleton_append]

theorem WovenHandlers.erase {hs hs' : List Node} {t : List Tag} :
    WovenHandlers plan marks first final hs t hs' → Before first (nodesIds hs) → eraseNodes first hs' = hs
  | .other _ _, old => eraseNodes_eq_self _ old
  | .cons _ ht hb hrest, old => by
    simp only [nodesIds, Node.ids, fieldsIds_cons, Field.ids_many, before_cons, before_append] at old
    obtain ⟨⟨hi, htype, hname, hbody, -⟩, hold⟩ := old
    simp only [eraseNodes, Node.remains_old hi, eraseFields, Field.erase, hb.erase hbody, ht.erase htype,
      Field.erase_eq_self _ hname, hrest.erase hold, List.singleton_append]

theorem WovenFields.erase {names : List String} {fs fs' : List Field} {t : List Tag} :
    WovenFields plan marks first final names fs t fs' → Before first (fieldsIds fs) → eraseFields first fs' = fs
  | .done, _ => by rw [eraseFields]
  | .beyond _, old => eraseFields_eq_self _ old
  | .skipped _ _ hfs, old => by
    rw [fieldsIds_cons, before_append] at old
    rw [eraseFields, Field.erase_eq_self _ old.1, hfs.erase old.2]
  | .walked _ hf hfs, old => by
    rw [fieldsIds_cons, before_append] at old
    rw [eraseFields, hf.erase old.1, hfs.erase old.2]

theorem WovenField.erase {f f' : Field} {t : List Tag} :
    WovenField plan marks first final f t f' → Before first f.ids → f'.erase first = f
  | .child hn, old => by
    rw [Field.ids_child] at old
    rw [Field.erase, hn.erase old]
  | .block _ hns, old => by
    rw [Field.ids_many] at old
    rw [Field.erase, hns.erase old]
  | .all _ hns, old => by
    rw [Field.ids_many] at old
    rw [Field.erase, hns.erase old]
  | .atom _, old => Field.erase_eq_self _ old

theorem WovenAll.erase {ns ns' : List Node} {t : List Tag} :
    WovenAll plan marks first final ns t ns' → Before first (nodesIds ns) → eraseNodes first ns' = ns
  | .nil, _ => by rw [eraseNodes]
  | .cons hn hns, old => by
    rw [nodesIds, before_append] at old
    rw [eraseNodes, hn.remains old.1, hn.erase old.1, hns.erase old.2]
    rfl
end

/-! ## Whole passes -/

/-- An instrumented tree without its injected nodes is the tree that was instrumented, up to numbers that
were missing in places. -/
theorem filled_erase_instrument {plan : Plan} {marks : Marks} {next : NodeId} {tree : Node} {i : Instrumented}
    (htree : Identified next tree) (h : instrument plan marks next tree = .ok i) :
    tree.Filled (i.tree.erase next) := by
  obtain ⟨n, hwoven, htree', -⟩ := instrument_spec htree h
  have hfilled : n.Filled (n.fillPlaces .start) := n.filled_fillPlaces .start
  rw [htree']
  rw [← hwoven.erase htree.below]
  exact hfilled.erase next

/-- A module with a guarded block, a counted expression and a `match` that can fail. -/
def sampleModule : Node :=
  .mk 0 .module {} [.many
    [.mk 1 (.tryStmt false) (placeAt 1 0)
      [.many [.mk 2 (.plain .pass) (placeAt 2 1) []], .many [], .many [],
        .many [.mk 3 (.plain .pass) (placeAt 3 1) []]],
      .mk 4 .matchStmt (placeAt 4 0)
        [.child (.mk 5 .lambda (placeAt 4 6)
          [.child (.mk 6 (.plain .arguments) {}
            [.many [], .many [], .none, .many [], .many [], .none, .many []]),
            .child (.mk 7 (.plain .constant) (placeAt 4 8) [.constant (.int 1), .none])]),
          .many [.mk 8 .matchCase {}
            [.child (.mk 9 (.plain .matchSingleton) (placeAt 5 5) [.constant .none]), .none,
              .many [.mk 10 (.plain .pass) (placeAt 5 10) []]]]]],
    .many []]

/-- A module with counters of all kinds. -/
theorem filled_erase_instrument_sampleModule :
    ∃ i, instrument { filename := "m.py" } {} 11 sampleModule = .ok i ∧ sampleModule.Filled (i.tree.erase 11) := by
  obtain ⟨i, h⟩ : ∃ i, instrument { filename := "m.py" } {} 11 sampleModule = .ok i :=
    exists_ok_of_toBool (by decide +kernel)
  exact ⟨i, h, filled_erase_instrument ⟨by decide, by decide⟩ h⟩

end Coverage.Pass
