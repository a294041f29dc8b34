import Coverage.Proofs.Nesting.Nested

/-!
# Where the arms of a decision point are

An arm goes from the start of one node to the end of another: from the first to the last statement of a body, from the
pattern of a case to the end of its body, or over a single expression. The spans that are offered for a decision point
are those between these nodes.
-/

namespace Coverage.Pass

open Syntax

variable {body : List Node} {spans : List Span}

/-! ## First and last nodes -/

def bounds (ns : List Node) : List (Node × Node) := ns.head?.toList.zip ns.getLast?.toList

/-- From the start of the first node to the end of the last. -/
def boundsSpan (e : Node × Node) : Span := (spanOf e.1).join (spanOf e.2)

theorem start_eq_of_boundsSpan {e e' : Node × Node} (h : boundsSpan e = boundsSpan e') :
    (spanOf e.1).start = (spanOf e'.1).start := by
  simpa [boundsSpan] using congrArg Span.start h

theorem stop_eq_of_boundsSpan {e e' : Node × Node} (h : boundsSpan e = boundsSpan e') :
    (spanOf e.2).stop = (spanOf e'.2).stop := by
  simpa [boundsSpan] using congrArg Span.stop h

/-- A case goes from its pattern to the end of its body. -/
def caseBounds : Node → List (Node × Node)
  | .mk _ .matchCase _ [.child pattern, _, .many body] => (bounds body).map fun e ↦ (pattern, e.2)
  | _ => []

/-- The way out of a construct: its `else` clause, or its header. -/
def exitBounds (header : Node) (orelse : List Node) : List (Node × Node) :=
  if orelse.isEmpty then [(header, header)] else bounds orelse

/-- The arms of a construct on its own. -/
def armBounds : NodeClass → List Field → List (Node × Node)
  | .ifStmt, [.child test, .many body, .many orelse] => bounds body ++ exitBounds test orelse
  | .ifExp, [_, .child body, .child orelse] => [(body, body), (orelse, orelse)]
  | .boolOp, [_, .many values] => values.map fun v ↦ (v, v)
  | .matchStmt, [.child subject, .many cases] =>
    cases.flatMap caseBounds ++ if endsWithDefault cases then [] else [(subject, subject)]
  | .whileLoop, [.child test, .many body, .many orelse] => bounds body ++ exitBounds test orelse
  | .forLoop _, [_, .child iter, .many body, .many orelse, _] => bounds body ++ exitBounds iter orelse
  | .tryStmt _, [.many body, .many handlers, _, .many finalbody] =>
    bounds body ++ if handlers.isEmpty then bounds finalbody else bounds handlers
  | _, _ => []

/-- The arms of a decision point. Those of an `if` chain are the bodies of its links and what the last one has. -/
def armEnds (plan : Plan) : Node → List (Node × Node)
  | .mk _ .ifStmt _ [.child test, .many body, .many [n]] =>
    if continues plan {} n then bounds body ++ armEnds plan n
    else armBounds .ifStmt [.child test, .many body, .many [n]]
  | .mk _ c _ fs => armBounds c fs
  | .gap => []

section Bounds

variable {ns : List Node} {e : Node × Node}

theorem mem_of_mem_bounds (h : e ∈ bounds ns) : e.1 ∈ ns ∧ e.2 ∈ ns := by
  obtain ⟨first, last⟩ := e
  have hmem := List.of_mem_zip h
  exact ⟨List.mem_of_head? (Option.mem_toList.1 hmem.1), List.mem_of_getLast? (Option.mem_toList.1 hmem.2)⟩

theorem bounds_eq (h : ns ≠ []) : ∃ first last, bounds ns = [(first, last)] ∧ ns.head? = some first ∧
    ns.getLast? = some last := by
  refine ⟨ns.head h, ns.getLast h, ?_, List.head?_eq_some_head h, List.getLast?_eq_some_getLast h⟩
  rw [bounds, List.head?_eq_some_head h, List.getLast?_eq_some_getLast h]
  rfl

theorem firsts_bounds_sublist : ((bounds ns).map Prod.fst).Sublist ns := by
  cases ns with
  | nil => exact .slnil
  | cons n ns =>
    obtain ⟨first, last, hbounds, hfirst, -⟩ := bounds_eq (List.cons_ne_nil n ns)
    cases hfirst
    simp [hbounds]

/-- The span of a list is that of its bounds. -/
theorem map_bounds {span : Span} (h : locateAll ns = .ok span) : (bounds ns).map boundsSpan = [span] := by
  obtain ⟨first, last, hbounds, hfirst, hlast⟩ := bounds_eq (ne_nil_of_locateAll h)
  rw [locateAll, hfirst, hlast] at h
  obtain ⟨s, hs, h⟩ := except_bind_eq_ok.1 h
  obtain ⟨t, ht, h⟩ := except_bind_eq_ok.1 h
  cases h
  simp [hbounds, boundsSpan, spanOf_eq hs, spanOf_eq ht]

theorem mem_exitBounds {header : Node} {orelse : List Node} (h : e ∈ exitBounds header orelse) :
    e = (header, header) ∨ e ∈ bounds orelse := by
  unfold exitBounds at h
  split at h
  · exact .inl (List.mem_singleton.1 h)
  · exact .inr h

end Bounds

/-! ## Spans of arms -/

section Spans

variable {plan : Plan} {n : Node}

theorem spansOf_sublist {spans : Except Unlocated (List Span)} {target : List Span}
    (h : ∀ found, spans = .ok found → found = target) : (spansOf spans).Sublist target := by
  cases spans with
  | error cause => exact List.nil_sublist _
  | ok found => exact h found rfl ▸ List.Sublist.refl _

theorem map_bounds_append {other : List (Node × Node)} {span exit : Span}
    (hspan : locateAll body = .ok span) (hexit : other.map boundsSpan = [exit]) :
    [span, exit] = (bounds body ++ other).map boundsSpan := by
  rw [List.map_append, map_bounds hspan, hexit]
  rfl

theorem body_then_other {x : Except Unlocated Span} {other : List (Node × Node)}
    (hother : ∀ span, x = .ok span → other.map boundsSpan = [span])
    (h : (do return [← locateAll body, ← x]) = .ok spans) : spans = (bounds body ++ other).map boundsSpan := by
  obtain ⟨span, hspan, h⟩ := except_bind_eq_ok.1 h
  obtain ⟨exit, hexit, h⟩ := except_bind_eq_ok.1 h
  cases h
  exact map_bounds_append hspan (hother exit hexit)

theorem other_then_body {x : Except Unlocated Span} {other : List (Node × Node)}
    (hother : ∀ span, x = .ok span → other.map boundsSpan = [span])
    (h : (do let other ← x; return [← locateAll body, other]) = .ok spans) :
    spans = (bounds body ++ other).map boundsSpan := by
  obtain ⟨exit, hexit, h⟩ := except_bind_eq_ok.1 h
  obtain ⟨span, hspan, h⟩ := except_bind_eq_ok.1 h
  cases h
  exact map_bounds_append hspan (hother exit hexit)

theorem map_header {header : Node} (span : Span) (h : locate header = .ok span) :
    [(header, header)].map boundsSpan = [span] := by
  simp [boundsSpan, spanOf_eq h]

theorem loopArms_eq {header : Node} {orelse : List Node} (h : loopArms header body orelse = .ok spans) :
    spans = (bounds body ++ exitBounds header orelse).map boundsSpan := by
  unfold loopArms at h
  unfold exitBounds
  split at h
  next hempty =>
    rw [if_pos hempty]
    exact other_then_body map_header h
  next hempty =>
    rw [if_neg hempty]
    exact other_then_body (fun _ ↦ map_bounds) h

/-- The arms of a `try` by the nodes they are measured by. -/
theorem tryArms_eq {handlers finalbody : List Node}
    (hcomplete : (!(handlers.isEmpty && finalbody.isEmpty)) = true) (h : tryArms body handlers finalbody = .ok spans) :
    spans = (bounds body ++ if handlers.isEmpty then bounds finalbody else bounds handlers).map boundsSpan := by
  unfold tryArms at h
  split at h
  next hhandlers =>
    rw [if_neg (by simpa using hhandlers)]
    exact other_then_body (fun _ ↦ map_bounds) h
  next hhandlers =>
    have hempty : handlers.isEmpty = true := by simpa using hhandlers
    rw [hempty, Bool.true_and] at hcomplete
    rw [if_pos hcomplete] at h
    rw [if_pos hempty]
    exact other_then_body (fun _ ↦ map_bounds) h

theorem mapM_locate_eq {ns : List Node} (h : ns.mapM locate = .ok spans) : spans = ns.map spanOf := by
  induction ns generalizing spans with
  | nil =>
    cases h
    rfl
  | cons n ns ih =>
    rw [List.mapM_cons] at h
    obtain ⟨span, hspan, h⟩ := except_bind_eq_ok.1 h
    obtain ⟨rest, hrest, h⟩ := except_bind_eq_ok.1 h
    cases h
    rw [List.map_cons, spanOf_eq hspan, ← ih hrest]

theorem caseArm_eq {span : Span} (h : caseArm n = .ok span) : (caseBounds n).map boundsSpan = [span] := by
  unfold caseArm at h
  split at h
  next i p pattern guard body =>
    obtain ⟨s, hs, h⟩ := except_bind_eq_ok.1 h
    obtain ⟨t, ht, h⟩ := except_bind_eq_ok.1 h
    cases h
    obtain ⟨first, last, hbounds, -⟩ := bounds_eq (ne_nil_of_locateAll ht)
    have hbody := map_bounds ht
    rw [hbounds] at hbody
    obtain rfl := List.singleton_inj.1 hbody
    simp [caseBounds, hbounds, boundsSpan, spanOf_eq hs, Span.join]
  next => cases h

theorem mapM_caseArm_eq {cases : List Node} (h : cases.mapM caseArm = .ok spans) :
    spans = (cases.flatMap caseBounds).map boundsSpan := by
  induction cases generalizing spans with
  | nil =>
    cases h
    rfl
  | cons n ns ih =>
    rw [List.mapM_cons] at h
    obtain ⟨span, hspan, h⟩ := except_bind_eq_ok.1 h
    obtain ⟨rest, hrest, h⟩ := except_bind_eq_ok.1 h
    cases h
    rw [List.flatMap_cons, List.map_append, caseArm_eq hspan, ← ih hrest]
    rfl

/-- The arms of a `match` by the nodes they are measured by. -/
theorem matchArms_eq {subject : Node} {cases : List Node} {hasDefault : Bool}
    (h : matchArms subject cases hasDefault = .ok spans) :
    spans = (cases.flatMap caseBounds ++ if hasDefault then [] else [(subject, subject)]).map boundsSpan := by
  unfold matchArms at h
  obtain ⟨arms, harms, h⟩ := except_bind_eq_ok.1 h
  rw [List.map_append, ← mapM_caseArm_eq harms]
  cases hasDefault with
  | true =>
    cases h
    simp
  | false =>
    obtain ⟨span, hspan, h⟩ := except_bind_eq_ok.1 h
    cases h
    simp [boundsSpan, spanOf_eq hspan]

/-- The spans of a chain are those of its bodies and of what its last link has. -/
theorem chainArms_eq (hlink : isLink n = true) (h : chainArms plan {} n = .ok spans) :
    spans = (armEnds plan n).map boundsSpan := by
  fun_induction armEnds plan n generalizing spans with
  | case1 i p test body n hnext ih =>
    rw [chainArms, if_pos hnext] at h
    obtain ⟨span, hspan, h⟩ := except_bind_eq_ok.1 h
    obtain ⟨rest, hrest, h⟩ := except_bind_eq_ok.1 h
    cases h
    obtain ⟨j, q, test', body', orelse', rfl⟩ := continues_link hnext
    rw [List.map_append, map_bounds hspan, ← ih rfl hrest]
    rfl
  | case2 i p test body n hlast =>
    rw [chainArms, if_neg hlast] at h
    exact body_then_other (fun _ ↦ map_bounds) h
  | case3 i c p fs hother =>
    unfold isLink at hlink
    split at hlink
    next heq =>
      cases heq
      unfold chainArms at h
      split at h
      next heq =>
        cases heq
        exact body_then_other map_header h
      next heq =>
        cases heq
        exact absurd rfl (hother _ _ _ rfl)
      next hnil hone heq =>
        cases heq
        rw [armBounds, exitBounds, if_neg (by simpa using hnil)]
        exact body_then_other (fun _ ↦ map_bounds) h
      next hno => exact absurd rfl (hno _ _ _ _ _)
    next => cases hlink
  | case4 => cases hlink

/-- The arms of a decision point are where the ends of its arms are. -/
theorem armsOf_sublist (plan : Plan) (hcomplete : n.complete = true) :
    ((armsOf plan n).map (·.2)).Sublist ((armEnds plan n).map boundsSpan) := by
  unfold armsOf
  split
  next i p fs =>
    cases hlink : isLink (.mk i .ifStmt p fs) with
    | false => simp [(chain_of_not_isLink hlink plan {}).1]
    | true =>
      cases harms : chainArms plan {} (.mk i .ifStmt p fs) with
      | error cause => simp [spansOf, Except.toOption]
      | ok spans =>
        rw [spansOf_ok, List.map_snd_zip (Nat.le_of_eq (length_chainEvents _ harms).symm), chainArms_eq hlink harms]
  next i p test body orelse => simp [numbered, armEnds, armBounds, boundsSpan]
  next i p op values =>
    rw [map_snd_numbered, armEnds, armBounds]
    · refine spansOf_sublist fun spans h ↦ ?_
      rw [mapM_locate_eq h, List.map_map]
      rfl
    · simp
  next i p subject cases =>
    rw [map_snd_numbered, armEnds, armBounds]
    · exact spansOf_sublist fun spans h ↦ matchArms_eq h
    · simp
  next i p test body orelse =>
    rw [map_snd_numbered, armEnds, armBounds]
    · exact spansOf_sublist fun spans h ↦ loopArms_eq h
    · simp
  next i async p target iter body orelse comment =>
    rw [map_snd_numbered, armEnds, armBounds]
    · exact spansOf_sublist fun spans h ↦ loopArms_eq h
    · simp
  next i star p body handlers orelse finalbody =>
    rw [map_snd_numbered, armEnds, armBounds]
    · exact spansOf_sublist fun spans h ↦ tryArms_eq hcomplete h
    · simp
  next => exact List.nil_sublist _

end Spans

end Coverage.Pass
