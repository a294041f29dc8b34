import Coverage.Proofs.Pass.Site
import Coverage.Proofs.Steps

/-!
# Located arms

The arms of a decision point that can be located: how many there are, and which parts of the node they show
not to be empty. The arms of an `if` chain depend on marks only through the marks of its links.
-/

namespace Coverage.Pass

open Syntax Program

variable {spans : List Span} {n : Node}

theorem ne_nil_of_locateAll {ns : List Node} {span : Span} (h : locateAll ns = .ok span) : ns ≠ [] := by
  rintro rfl
  simp [locateAll] at h

theorem two_arms_ok {x : Except Unlocated Span} {body : List Node}
    (h : (do let other ← x; return [← locateAll body, other]) = .ok spans) : spans.length = 2 ∧ body ≠ [] := by
  obtain ⟨other, -, h⟩ := except_bind_eq_ok.1 h
  obtain ⟨span, hspan, h⟩ := except_bind_eq_ok.1 h
  cases h
  exact ⟨rfl, ne_nil_of_locateAll hspan⟩

theorem loopArms_ok {header : Node} {body orelse : List Node}
    (h : loopArms header body orelse = .ok spans) : spans.length = 2 ∧ body ≠ [] := by
  unfold loopArms at h
  split at h
  · exact two_arms_ok h
  · exact two_arms_ok h

theorem tryArms_ok {body handlers finalbody : List Node}
    (h : tryArms body handlers finalbody = .ok spans) : spans.length = 2 ∧ body ≠ [] := by
  unfold tryArms at h
  split at h
  · exact two_arms_ok h
  · split at h
    · exact two_arms_ok h
    · exact two_arms_ok h

theorem length_of_mapM_ok {ε α β : Type} {f : α → Except ε β} {xs : List α} {ys : List β}
    (h : xs.mapM f = .ok ys) : ys.length = xs.length := by
  induction xs generalizing ys with
  | nil =>
    cases h
    rfl
  | cons x xs ih =>
    rw [List.mapM_cons] at h
    obtain ⟨y, -, h⟩ := except_bind_eq_ok.1 h
    obtain ⟨rest, hrest, h⟩ := except_bind_eq_ok.1 h
    cases h
    simp [ih hrest]

/-- The arms of a `match` are its cases and, without a default, its subject. -/
theorem matchArms_ok {subject : Node} {cases : List Node} {hasDefault : Bool}
    (h : matchArms subject cases hasDefault = .ok spans) :
    (∃ arms, cases.mapM caseArm = .ok arms) ∧
      spans.length = if hasDefault then cases.length else cases.length + 1 := by
  unfold matchArms at h
  obtain ⟨arms, harms, h⟩ := except_bind_eq_ok.1 h
  refine ⟨⟨arms, harms⟩, ?_⟩
  cases hasDefault with
  | true =>
    cases h
    exact length_of_mapM_ok harms
  | false =>
    obtain ⟨span, -, h⟩ := except_bind_eq_ok.1 h
    cases h
    simp [length_of_mapM_ok harms]

/-- A case that can be located has a pattern and a body. -/
theorem caseArm_ok {span : Span} (h : caseArm n = .ok span) :
    ∃ i p pattern guard body, n = .mk i .matchCase p [.child pattern, guard, .many body] ∧ body ≠ [] := by
  unfold caseArm at h
  split at h
  next i p pattern guard body =>
    obtain ⟨_, -, h⟩ := except_bind_eq_ok.1 h
    obtain ⟨_, hbody, -⟩ := except_bind_eq_ok.1 h
    exact ⟨i, p, pattern, guard, body, rfl, ne_nil_of_locateAll hbody⟩
  next => cases h

/-! ## Chains -/

attribute [local simp] chainArms chainEvents chainSites

theorem continues_congr {plan : Plan} {m marks : Marks}
    (h : ∀ i ∈ n.ids, m.contains i = marks.contains i) : continues plan m n = continues plan marks n := by
  unfold continues
  cases n with
  | gap => rfl
  | mk i c p fs => simp [Marks.holds, h i (by simp [Node.ids])]

/-- Only the marks on a chain matter to its arms. -/
theorem chainArms_congr {plan : Plan} {m marks : Marks} (n : Node)
    (h : ∀ i ∈ n.ids, m.contains i = marks.contains i) : chainArms plan m n = chainArms plan marks n := by
  fun_induction chainArms plan marks n with
  | case1 => simp
  | case2 i p test body n hc ih =>
    have hn : ∀ j ∈ n.ids, m.contains j = marks.contains j := by
      intro j hj
      exact h j (by simp [Node.ids, fieldsIds, nodesIds, hj])
    simp [continues_congr hn, hc, ih hn]
  | case3 i p test body n hc =>
    have hn : ∀ j ∈ n.ids, m.contains j = marks.contains j := by
      intro j hj
      exact h j (by simp [Node.ids, fieldsIds, nodesIds, hj])
    simp [continues_congr hn, hc]
  | case4 i p test body orelse hnil hone => simp_all
  | case5 => simp_all

section Chains

variable {plan : Plan} {marks : Marks} {i : NodeId} {p : Place} {test : Node} {body orelse : List Node}
  {arms : List Span}

theorem body_and_other_ok {x : Except Unlocated Span} (h : (do return [← locateAll body, ← x]) = .ok arms) :
    arms.length = 2 ∧ body ≠ [] := by
  obtain ⟨span, hspan, h⟩ := except_bind_eq_ok.1 h
  obtain ⟨other, -, h⟩ := except_bind_eq_ok.1 h
  cases h
  exact ⟨rfl, ne_nil_of_locateAll hspan⟩

/-- The last link of a chain has two arms. -/
theorem chainArms_last (hlast : hasNextLink plan marks orelse = false)
    (h : chainArms plan marks (.mk i .ifStmt p [.child test, .many body, .many orelse]) = .ok arms) :
    arms.length = 2 ∧ body ≠ [] := by
  match orelse, hlast, h with
  | [], _, h => exact body_and_other_ok h
  | [n], hlast, h =>
    rw [chainArms, if_neg (by simpa [hasNextLink] using hlast)] at h
    exact body_and_other_ok h
  | n :: m :: rest, _, h =>
    rw [chainArms] at h
    · exact body_and_other_ok h
    all_goals simp

/-- A link that is not the last has one arm, and the rest of the chain has the others. -/
theorem chainArms_next (hnext : continues plan marks n = true)
    (h : chainArms plan marks (.mk i .ifStmt p [.child test, .many body, .many [n]]) = .ok arms) :
    ∃ span rest, arms = span :: rest ∧ chainArms plan marks n = .ok rest ∧ body ≠ [] := by
  rw [chainArms, if_pos hnext] at h
  obtain ⟨span, hspan, h⟩ := except_bind_eq_ok.1 h
  obtain ⟨rest, hrest, h⟩ := except_bind_eq_ok.1 h
  cases h
  exact ⟨span, rest, rfl, hrest, ne_nil_of_locateAll hspan⟩

/-- An excluded statement has a line: its own one, if that is excluded, and a definition with decorators has a
place. -/
theorem line_of_excludes (h : plan.excludes n = true)
    (hplaced : n.decorators ≠ [] → n.place.span?.isSome = true) : ∃ line, n.place.line = some line := by
  by_cases hdecorators : n.decorators = []
  · cases hline : n.place.line with
    | some line => exact ⟨line, rfl⟩
    | none => simp [Plan.excludes, hline, Plan.excludesLine, hdecorators] at h
  · have hspan := hplaced hdecorators
    generalize n.place = p at hspan
    unfold Place.span? at hspan
    split at hspan
    next line _ _ _ => exact ⟨line, rfl⟩
    next => cases hspan

/-- A node that continues a chain is a link. -/
theorem continues_link (h : continues plan marks n = true) :
    ∃ j q test body orelse, n = .mk j .ifStmt q [.child test, .many body, .many orelse] := by
  unfold continues isLink at h
  split at h
  next j q test body orelse => exact ⟨j, q, test, body, orelse, rfl⟩
  next => simp at h

theorem passesOver_of_continues (h : continues plan marks n = true) : passesOver plan marks false n = false := by
  obtain ⟨i, p, test, body, orelse, rfl⟩ := continues_link h
  simp only [continues, Bool.and_eq_true, Bool.not_eq_true'] at h
  simp [passesOver, h.1.2, h.2, Node.isFutureImport]

theorem hasNextLink_eq_true (h : hasNextLink plan marks orelse = true) :
    ∃ n, orelse = [n] ∧ continues plan marks n = true := by
  unfold hasNextLink at h
  split at h
  next n => exact ⟨n, rfl, h⟩
  next => cases h

/-- An `if` without the parts of one has no arms. -/
theorem chain_of_not_isLink {fs : List Field} (noLink : isLink (.mk i .ifStmt p fs) = false) (plan : Plan)
    (marks : Marks) : chainEvents plan marks (.mk i .ifStmt p fs) = [] ∧ chainSites plan marks i fs = [] := by
  have hfs : ∀ test body orelse, fs ≠ [.child test, .many body, .many orelse] := by
    rintro test body orelse rfl
    simp [isLink] at noLink
  rw [chainEvents, chainSites]
  · exact ⟨rfl, rfl⟩
  · exact hfs
  · rintro _ _ _ _ _ h
    cases h
    exact hfs _ _ _ rfl

theorem chainEvents_next (h : continues plan marks n = true) :
    chainEvents plan marks (.mk i .ifStmt p [.child test, .many body, .many [n]]) =
      .took i 0 :: chainEvents plan marks n := by
  simp [hasNextLink, h]

theorem chainEvents_last (h : hasNextLink plan marks orelse = false) :
    chainEvents plan marks (.mk i .ifStmt p [.child test, .many body, .many orelse]) =
      [.took i 0, .took i 1] := by
  simp [h]

/-- The sites of a chain that goes on. -/
theorem chainSites_next {j : NodeId} {q : Place} {fs : List Field}
    (h : continues plan marks (.mk j .ifStmt q fs) = true) :
    chainSites plan marks i [.child test, .many body, .many [.mk j .ifStmt q fs]] =
      sites plan marks test ++ blockSites plan marks false body ++
        .quiet (.took i 1) :: .quiet (.started j) :: chainSites plan marks j fs := by
  rw [chainSites]
  exact h

theorem chainSites_last (h : hasNextLink plan marks orelse = false) :
    chainSites plan marks i [.child test, .many body, .many orelse] =
      sites plan marks test ++ blockSites plan marks false body ++ blockSites plan marks false orelse := by
  rw [chainSites]
  simp [h]

/-- A chain that starts at a link has an arm. -/
theorem chainArms_ne_nil
    (h : chainArms plan marks (.mk i .ifStmt p [.child test, .many body, .many orelse]) = .ok arms) :
    arms ≠ [] := by
  cases hlast : hasNextLink plan marks orelse with
  | false =>
    rintro rfl
    simpa using (chainArms_last hlast h).1
  | true =>
    obtain ⟨n, rfl, hnext⟩ := hasNextLink_eq_true hlast
    obtain ⟨span, rest, rfl, -⟩ := chainArms_next hnext h
    simp

/-- A chain that starts at a link has at least two arms. -/
theorem two_le_chainArms
    (h : chainArms plan marks (.mk i .ifStmt p [.child test, .many body, .many orelse]) = .ok arms) :
    2 ≤ arms.length := by
  cases hlast : hasNextLink plan marks orelse with
  | false => exact Nat.le_of_eq (chainArms_last hlast h).1.symm
  | true =>
    obtain ⟨n, rfl, hnext⟩ := hasNextLink_eq_true hlast
    obtain ⟨span, rest, rfl, hrest, -⟩ := chainArms_next hnext h
    obtain ⟨j, q, test, body, orelse, rfl⟩ := continues_link hnext
    exact Nat.succ_le_succ (List.length_pos_iff.2 (chainArms_ne_nil hrest))

/-- A chain has an event for each arm. -/
theorem length_chainEvents (n : Node) (h : chainArms plan marks n = .ok arms) :
    (chainEvents plan marks n).length = arms.length := by
  induction n using chainEvents.induct plan marks generalizing arms with
  | case1 i p test body n hnext ih =>
    obtain ⟨span, rest, rfl, hrest, -⟩ := chainArms_next hnext h
    simp [chainEvents_next hnext, ih hrest]
  | case2 i p test body orelse hlast =>
    have hlast : hasNextLink plan marks orelse = false := by
      rw [← Bool.not_eq_true]
      intro hnext
      obtain ⟨n, rfl, -⟩ := hasNextLink_eq_true hnext
      exact hlast n hnext rfl
    rw [chainEvents_last hlast, (chainArms_last hlast h).1]
    rfl
  | case3 n hother =>
    have hnone : chainEvents plan marks n = [] := by
      rw [chainEvents]
      exact hother
    rw [hnone]
    unfold chainArms at h
    split at h
    case h_4 =>
      cases h
      rfl
    all_goals exact absurd rfl (hother _ _ _ _ _)

end Chains

end Coverage.Pass
