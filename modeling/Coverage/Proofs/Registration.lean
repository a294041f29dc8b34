import Coverage.Proofs.Registration.Occurrence
import Coverage.Proofs.Syntax.Places

/-!
# What a pass registers

Offers are accepted or refused, so the keys of what a pass offers are those of its record and its refusals
together, and its groups are those of the decision points. How many arms a decision point has is said by the
construct: one more than there are links in an `if` chain, one for each operand, one for each case and one if no
case has to match, and two otherwise.
-/

namespace Coverage.Pass

open Syntax Program
open scoped List

/-! ## How many arms there are -/

/-- The number of links of an `if` chain: it goes on as long as the `else` is another `if` alone, which is not
excluded. -/
def chainLength (plan : Plan) : Node → Nat
  | .mk _ .ifStmt _ [_, _, .many [n]] => if isLink n && !plan.excludes n then chainLength plan n + 1 else 1
  | _ => 1

/-- The number of arms of a decision point. -/
def armCount (plan : Plan) : Node → Nat
  | .mk i .ifStmt p fs => chainLength plan (.mk i .ifStmt p fs) + 1
  | .mk _ .boolOp _ [_, .many values] => values.length
  | .mk _ .matchStmt _ [_, .many cases] => if endsWithDefault cases then cases.length else cases.length + 1
  | _ => 2

/-- The group of a decision point, apart from its number: construct, number of arms and span. -/
def Occurrence.group? (plan : Plan) (o : Occurrence) : Option (Construct × Int × Span) :=
  if o.chained then none
  else (o.node.cls? >>= construct?).map fun construct ↦ (construct, armCount plan o.node, spanOf o.node)

/-! ## Keys and groups of offers -/

def Site.keys : Site → List Key
  | .unit _ kind span _ => [keyOf kind span]
  | .fork _ _ arms => arms.map fun arm ↦ keyOf .branch arm.2
  | .quiet _ | .silent _ => []

def Site.group? : Site → Option (Construct × Int × Span)
  | .fork construct span arms => if arms.isEmpty then none else some (construct, arms.length, span)
  | _ => none

section Enrolment

variable {plan : Plan}

theorem keys_add (m : Metadata Kind) (e : Entry Kind) :
    (m.add e).2.keys = (if (m.add e).1 then m.keys ++ [e.key] else m.keys) ∧ (m.add e).2.groups = m.groups := by
  have hrefresh : m.refresh.entries = m.entries ∧ m.refresh.groups = m.groups := by
    unfold Metadata.refresh
    split <;> exact ⟨rfl, rfl⟩
  cases hfind : m.refresh.find? e.key <;>
    simp [Metadata.add, Metadata.get, hfind, Metadata.keys, hrefresh.1, hrefresh.2]

theorem keys_offer (m : Metadata Kind) (event : Event) (e : Entry Kind) :
    ((offer m event e).record.keys ++ (offer m event e).refused).Perm (m.keys ++ [e.key]) ∧
      (offer m event e).record.groups = m.groups := by
  obtain ⟨hkeys, hgroups⟩ := keys_add m e
  unfold offer
  split
  next hadded => simp [hkeys, hadded, hgroups]
  next hadded => simp [hkeys, hadded, hgroups]

/-- What is refused may be put in front of what comes later. -/
theorem perm_andThen {e f : Enrolment} {before after : List Key}
    (he : (e.record.keys ++ e.refused).Perm before)
    (hf : (f.record.keys ++ f.refused).Perm (e.record.keys ++ after)) :
    ((e.andThen f).record.keys ++ (e.andThen f).refused).Perm (before ++ after) := by
  calc
    f.record.keys ++ (e.refused ++ f.refused) ~ e.refused ++ (f.record.keys ++ f.refused) :=
      List.perm_append_comm_assoc ..
    _ ~ e.refused ++ (e.record.keys ++ after) := hf.append_left _
    _ ~ e.record.keys ++ (e.refused ++ after) := List.perm_append_comm_assoc ..
    _ = (e.record.keys ++ e.refused) ++ after := (List.append_assoc ..).symm
    _ ~ before ++ after := he.append_right _

theorem keys_offerArms (group : Int) (a : Nat) (arms : List (Event × Span)) (m : Metadata Kind) :
    ((offerArms group a arms m).record.keys ++ (offerArms group a arms m).refused).Perm
        (m.keys ++ arms.map fun arm ↦ keyOf .branch arm.2) ∧
      (offerArms group a arms m).record.groups = m.groups := by
  induction arms generalizing a m with
  | nil => simp [offerArms]
  | cons arm arms ih =>
    obtain ⟨event, span⟩ := arm
    obtain ⟨hkeys, hgroups⟩ := keys_offer m event (armEntry group a span)
    obtain ⟨hkeys', hgroups'⟩ := ih (a + 1) (offer m event (armEntry group a span)).record
    refine ⟨?_, hgroups'.trans hgroups⟩
    have hall := perm_andThen hkeys hkeys'
    rw [List.append_assoc] at hall
    exact hall

/-- All keys of a site are in the record or refused, and its group is in the record. -/
theorem keys_enrol (hcounts : ∀ kind, plan.counts kind = true) (m : Metadata Kind) (site : Site) :
    ((enrol plan m site).record.keys ++ (enrol plan m site).refused).Perm (m.keys ++ site.keys) ∧
      (enrol plan m site).record.groups.map (fun g ↦ (g.construct, g.arms, g.span)) =
        m.groups.map (fun g ↦ (g.construct, g.arms, g.span)) ++ site.group?.toList := by
  cases site with
  | unit event kind span name =>
    have hoffer := keys_offer m event { key := keyOf kind span, kind, span, name }
    simpa [enrol, hcounts, Site.keys, Site.group?, hoffer.2] using hoffer.1
  | fork construct span arms =>
    cases arms with
    | nil => simp [enrol, hcounts, Metadata.addGroup, Site.keys, Site.group?]
    | cons arm arms =>
      have hadd : m.addGroup construct (arm :: arms).length span =
          some (m.nextGroup construct (arm :: arms).length span,
            { m with groups := m.groups ++ [m.nextGroup construct (arm :: arms).length span] }) :=
        if_neg (by simp only [List.length_cons]; omega)
      have hoffer := keys_offerArms (m.nextGroup construct (arm :: arms).length span).id 0 (arm :: arms)
        { m with groups := m.groups ++ [m.nextGroup construct (arm :: arms).length span] }
      rw [enrol, if_pos (hcounts _), hadd]
      refine ⟨hoffer.1, ?_⟩
      rw [hoffer.2]
      simp [Metadata.nextGroup, Site.group?]
  | quiet event => simp [enrol, Site.keys, Site.group?]
  | silent i => simp [enrol, Site.keys, Site.group?]

/-- All keys of the sites are in the record or refused. -/
theorem keys_enrolAll (hcounts : ∀ kind, plan.counts kind = true) (m : Metadata Kind) (sites : List Site) :
    ((enrolAll plan m sites).record.keys ++ (enrolAll plan m sites).refused).Perm
        (m.keys ++ sites.flatMap Site.keys) ∧
      (enrolAll plan m sites).record.groups.map (fun g ↦ (g.construct, g.arms, g.span)) =
        m.groups.map (fun g ↦ (g.construct, g.arms, g.span)) ++ sites.filterMap Site.group? := by
  induction sites generalizing m with
  | nil => simp
  | cons site rest ih =>
    obtain ⟨hkeys, hgroups⟩ := keys_enrol hcounts m site
    obtain ⟨hkeys', hgroups'⟩ := ih (enrol plan m site).record
    have hall := perm_andThen hkeys hkeys'
    rw [List.append_assoc] at hall
    refine ⟨hall, ?_⟩
    rw [enrolAll_cons]
    change (enrolAll plan (enrol plan m site).record rest).record.groups.map _ = _
    rw [hgroups', hgroups, List.filterMap_cons]
    cases site.group? <;> simp

/-- Sites that offer nothing can be left out. -/
theorem enrolAll_offers (m : Metadata Kind) (sites : List Site) :
    (enrolAll plan m (offers sites)).record = (enrolAll plan m sites).record ∧
      (enrolAll plan m (offers sites)).refused = (enrolAll plan m sites).refused := by
  induction sites generalizing m with
  | nil => exact ⟨rfl, rfl⟩
  | cons site rest ih =>
    cases site with
    | unit event kind span name =>
      obtain ⟨hrecord, hrefused⟩ := ih (enrol plan m (.unit event kind span name)).record
      simp [Enrolment.andThen, hrecord, hrefused]
    | fork construct span arms =>
      obtain ⟨hrecord, hrefused⟩ := ih (enrol plan m (.fork construct span arms)).record
      simp [Enrolment.andThen, hrecord, hrefused]
    | quiet event => exact ih m
    | silent i => exact ih m

end Enrolment

/-! ## Arms -/

section Arms

variable {plan : Plan}

theorem chainLength_last {i : NodeId} {p : Place} {test : Node} {body orelse : List Node}
    (h : hasNextLink plan {} orelse = false) :
    chainLength plan (.mk i .ifStmt p [.child test, .many body, .many orelse]) = 1 := by
  match orelse with
  | [] => rfl
  | _ :: _ :: _ => rfl
  | [n] =>
    have hends : (isLink n && !plan.excludes n) = false := by
      cases n <;> simpa [hasNextLink, continues, Marks.holds, Marks.contains] using h
    rw [chainLength, hends]
    rfl

theorem chainLength_next {i : NodeId} {p : Place} {test n : Node} {body : List Node}
    (h : continues plan {} n = true) :
    chainLength plan (.mk i .ifStmt p [.child test, .many body, .many [n]]) = chainLength plan n + 1 := by
  have hgoes : (isLink n && !plan.excludes n) = true := by
    simp only [continues, Bool.and_eq_true] at h
    simp [h.1.1, h.2]
  rw [chainLength, hgoes]
  rfl

/-- The arms of a chain are its bodies and what is left when all tests fail. -/
theorem length_chainArms {n : Node} {arms : List Span} (hlink : isLink n = true)
    (h : chainArms plan {} n = .ok arms) : arms.length = chainLength plan n + 1 := by
  induction n using chainEvents.induct plan {} generalizing arms with
  | case1 i p test body n hnext ih =>
    have hcontinues : continues plan {} n = true := hnext
    obtain ⟨span, rest, rfl, hrest, -⟩ := chainArms_next hcontinues h
    obtain ⟨j, q, test', body', orelse', rfl⟩ := continues_link hcontinues
    rw [chainLength_next hcontinues, List.length_cons, ih rfl hrest]
  | case2 i p test body orelse hlast =>
    have hlast : hasNextLink plan {} orelse = false := by
      rw [← Bool.not_eq_true]
      intro hnext
      obtain ⟨n, rfl, -⟩ := hasNextLink_eq_true hnext
      exact hlast n hnext rfl
    rw [chainLength_last hlast, (chainArms_last hlast h).1]
  | case3 n hother =>
    unfold isLink at hlink
    split at hlink
    next => exact absurd rfl (hother _ _ _ _ _)
    next => cases hlink

theorem spansOf_ne_nil {spans : Except Unlocated (List Span)} (h : spansOf spans ≠ []) :
    spans = .ok (spansOf spans) := by
  cases spans with
  | error cause => exact absurd rfl h
  | ok spans => rfl

theorem numbered_ne_nil {i : NodeId} {a : Nat} {spans : List Span} (h : numbered i a spans ≠ []) : spans ≠ [] := by
  rintro rfl
  exact h rfl

/-- A decision point that has arms has as many as it should. -/
theorem length_armsOf {n : Node} (h : armsOf plan n ≠ []) : (armsOf plan n).length = armCount plan n := by
  unfold armsOf at h ⊢
  split at h
  next i p fs =>
    have hevents : chainEvents plan {} (.mk i .ifStmt p fs) ≠ [] := fun hnil ↦ h (by rw [hnil, List.zip_nil_left])
    have hspans : spansOf (chainArms plan {} (.mk i .ifStmt p fs)) ≠ [] := fun hnil ↦
      h (by rw [hnil, List.zip_nil_right])
    have hlink : isLink (.mk i .ifStmt p fs) = true := by
      rw [← Bool.not_eq_false]
      exact fun hnot ↦ hevents (chain_of_not_isLink hnot plan {}).1
    have harms := spansOf_ne_nil hspans
    rw [List.length_zip, length_chainEvents _ harms, Nat.min_self]
    exact length_chainArms hlink harms
  next i p test body orelse => rfl
  next i p op values =>
    rw [length_numbered]
    exact length_of_mapM_ok (spansOf_ne_nil (numbered_ne_nil h))
  next i p subject cases =>
    rw [length_numbered, (matchArms_ok (spansOf_ne_nil (numbered_ne_nil h))).2]
    rfl
  next =>
    rw [length_numbered]
    exact (loopArms_ok (spansOf_ne_nil (numbered_ne_nil h))).1
  next =>
    rw [length_numbered]
    exact (loopArms_ok (spansOf_ne_nil (numbered_ne_nil h))).1
  next =>
    rw [length_numbered]
    exact (tryArms_ok (spansOf_ne_nil (numbered_ne_nil h))).1
  next => exact absurd rfl h

/-- The groups made for an occurrence. -/
theorem group?_registrations (o : Occurrence) (harmed : ∀ site ∈ o.registrations plan, site.Armed) :
    (o.registrations plan).filterMap Site.group? = (o.group? plan).toList := by
  have hstart : ∀ n : Node, (startSites n).filterMap Site.group? = [] := fun n ↦ by cases n <;> rfl
  have hentry : ∀ n : Node, (entrySites n).filterMap Site.group? = [] := fun n ↦ by
    unfold entrySites
    split <;> rfl
  have hunits : (o.registrations plan).filterMap Site.group? =
      (if o.chained then [] else forkSites plan o.node).filterMap Site.group? := by
    rw [Occurrence.registrations, List.filterMap_append, List.filterMap_append, hentry]
    split <;> simp [hstart]
  have hforks : ∀ site ∈ (if o.chained then [] else forkSites plan o.node), site.Armed := fun site hsite ↦
    harmed site (List.mem_append_right _ hsite)
  rw [hunits, Occurrence.group?]
  cases hchained : o.chained with
  | true => rfl
  | false =>
    simp only [hchained, Bool.false_eq_true, if_false, forkSites] at hforks ⊢
    cases hconstruct : o.node.cls? >>= construct? with
    | none => rfl
    | some construct =>
      rw [hconstruct] at hforks
      have harms : armsOf plan o.node ≠ [] := hforks _ (List.mem_singleton.2 rfl)
      simp [Site.group?, harms, length_armsOf harms]

/-- The groups made for occurrences. -/
theorem filterMap_offered {os : List Occurrence} (harmed : ∀ o ∈ os, ∀ site ∈ o.registrations plan, site.Armed) :
    (offered plan os).filterMap Site.group? = os.filterMap (·.group? plan) := by
  induction os with
  | nil => rfl
  | cons o os ih =>
    have hrest := ih fun o ho ↦ harmed o (List.mem_cons_of_mem _ ho)
    rw [offered_cons, List.filterMap_append, group?_registrations o (harmed o List.mem_cons_self), hrest,
      List.filterMap_cons]
    cases o.group? plan <;> rfl

end Arms

/-! ## Passes over modules -/

/-- A pass registers what it should: some order of what is offered for the nodes below the root leads to its record
and its refusals. Each entry that is offered is accepted or refused under its key, and the groups are those of
the decision points, each with as many arms as the construct has. -/
structure RegistersExactly (plan : Plan) (tree : Node) (i : Instrumented) : Prop where
  offered : ∃ order : List Site, order.Perm (registrations plan tree) ∧
    i.record = (enrolAll plan { filename := plan.filename } order).record ∧
      refusals i.notes = (enrolAll plan { filename := plan.filename } order).refused
  keys : (i.record.keys ++ refusals i.notes).Perm ((registrations plan tree).flatMap Site.keys)
  groups : (i.record.groups.map fun g ↦ (g.construct, g.arms, g.span)).Perm
    ((descendants plan tree).filterMap (·.group? plan))
  arms : ∀ o ∈ descendants plan tree, ∀ construct span arms,
    .fork construct span arms ∈ o.registrations plan → arms.length = armCount plan o.node

/-- A fork that is registered has the arms of its node. -/
theorem eq_armsOf_of_mem {plan : Plan} {o : Occurrence} {construct : Construct} {span : Span}
    {arms : List (Event × Span)} (h : .fork construct span arms ∈ o.registrations plan) :
    arms = armsOf plan o.node := by
  have hstart : ∀ n : Node, .fork construct span arms ∉ startSites n := fun n ↦ by cases n <;> simp [startSites]
  have hentry : ∀ n : Node, .fork construct span arms ∉ entrySites n := fun n ↦ by
    unfold entrySites
    split <;> simp
  rw [Occurrence.registrations, List.mem_append, List.mem_append] at h
  have hunits : .fork construct span arms ∉ if o.startsUnit then startSites o.node else [] := by
    split
    · exact hstart _
    · simp
  have hfork : .fork construct span arms ∈ if o.chained then [] else forkSites plan o.node :=
    h.resolve_left fun hunit ↦ hunit.elim hunits (hentry _)
  unfold forkSites at hfork
  split at hfork
  · cases hfork
  · split at hfork
    · cases hfork
    · simp only [List.mem_singleton, Site.fork.injEq] at hfork
      exact hfork.2.2

/-- With every kind of unit counted and nothing marked beforehand, a pass over a module of the grammar that is not
stopped registers exactly what is offered for the nodes below the module. -/
theorem registersExactly_instrument {plan : Plan} {full : Bool} {next j : NodeId} {place : Place} {fs : List Field}
    {i : Instrumented} (hgrammar : (Node.mk j .module place fs).isA full .root = true)
    (htree : Identified next (.mk j .module place fs)) (hcounts : ∀ kind, plan.counts kind = true)
    (h : instrument plan {} next (.mk j .module place fs) = .ok i) :
    RegistersExactly plan (.mk j .module place fs) i := by
  obtain ⟨tree, htree_eq⟩ : ∃ tree, tree = Node.mk j .module place fs := ⟨_, rfl⟩
  have horder : (offers (sites plan {} tree)).Perm (registrations plan tree) := by
    subst htree_eq
    exact perm_offers_module hgrammar
  rw [← htree_eq] at htree h ⊢
  obtain ⟨-, -, -, hrecord, hrefused⟩ := instrument_spec htree h
  have hoffers : i.record = (enrolAll plan { filename := plan.filename } (offers (sites plan {} tree))).record ∧
      refusals i.notes = (enrolAll plan { filename := plan.filename } (offers (sites plan {} tree))).refused := by
    obtain ⟨hsame, hsame'⟩ := @enrolAll_offers plan { filename := plan.filename } (sites plan {} tree)
    exact ⟨by rw [hsame, hrecord]; rfl, by rw [hsame', hrefused]; rfl⟩
  have harmed : ∀ site ∈ registrations plan tree, site.Armed := fun site hsite ↦
    armed_of_instrument htree h (hcounts .branch) site (List.mem_of_mem_filter (horder.mem_iff.2 hsite))
  have hregistered : ∀ o ∈ descendants plan tree, ∀ site ∈ o.registrations plan, site.Armed := fun o ho site hsite ↦
    harmed site (List.mem_flatMap.2 ⟨o, ho, hsite⟩)
  obtain ⟨hkeys, hgroups⟩ := keys_enrolAll hcounts { filename := plan.filename } (offers (sites plan {} tree))
  constructor
  case offered => exact ⟨_, horder, hoffers⟩
  case keys =>
    rw [hoffers.1, hoffers.2]
    exact hkeys.trans (horder.flatMap_right _)
  case groups =>
    have hexpected : (registrations plan tree).filterMap Site.group? =
        (descendants plan tree).filterMap (·.group? plan) := filterMap_offered hregistered
    rw [hoffers.1, hgroups, ← hexpected]
    exact horder.filterMap _
  case arms =>
    intro o ho construct span arms hmem
    have harms := hregistered o ho _ hmem
    obtain rfl := eq_armsOf_of_mem hmem
    exact length_armsOf harms

/-- A function with a decorator, a default and a docstring, whose body is an `if` chain with an operator. -/
def decoratedChain : Node :=
  .mk 0 .module {} [.many
    [.mk 1 (.functionDef false) ⟨some 2, some 0, some 7, some 8⟩
      [.text "f",
        .child (.mk 2 (.plain .arguments) {}
          [.many [], .many [.mk 3 (.plain .arg) (placeAt 2 6) [.text "a", .none, .none]], .none, .many [], .many [],
            .none, .many [.mk 4 .lambda (placeAt 2 8)
              [.child (.mk 5 (.plain .arguments) {}
                [.many [], .many [], .none, .many [], .many [], .none, .many []]),
                .child (.mk 6 (.plain .constant) (placeAt 2 16) [.constant (.int 1), .none])]]]),
        .many [.mk 7 (.plain .exprStmt) (placeAt 3 2)
          [.child (.mk 8 (.plain .constant) (placeAt 3 2) [.constant (.str "doc"), .none])],
          .mk 9 .ifStmt ⟨some 4, some 2, some 7, some 8⟩
            [.child (.mk 10 .boolOp ⟨some 4, some 5, some 4, some 11⟩
              [.child (.mk 11 (.plain .or) {} []),
                .many [.mk 12 (.plain .constant) (placeAt 4 5) [.constant (.int 0), .none],
                  .mk 13 (.plain .constant) (placeAt 4 10) [.constant (.int 1), .none]]]),
              .many [.mk 14 (.plain .pass) (placeAt 5 4) []],
              .many [.mk 15 .ifStmt ⟨some 6, some 2, some 7, some 8⟩
                [.child (.mk 16 (.plain .constant) (placeAt 6 7) [.constant (.int 1), .none]),
                  .many [.mk 17 (.plain .pass) (placeAt 7 4) []], .many []]]]],
        .many [.mk 18 (.plain .constant) (placeAt 1 1) [.constant .none, .none]], .none, .none]],
    .many []]

/-- A chain in a decorated function. -/
theorem registersExactly_instrument_decoratedChain :
    ∃ i, instrument { filename := "m.py" } {} 19 decoratedChain = .ok i ∧
      RegistersExactly { filename := "m.py" } decoratedChain i := by
  obtain ⟨i, h⟩ : ∃ i, instrument { filename := "m.py" } {} 19 decoratedChain = .ok i :=
    exists_ok_of_toBool (by decide +kernel)
  have hgrammar : decoratedChain.isA true .root = true := by decide +kernel
  exact ⟨i, h, registersExactly_instrument hgrammar ⟨by decide, by decide⟩ (fun _ ↦ rfl) h⟩

-- The chain has three arms, the operator has two, and two functions and four statements are counted.
example : ((registrations { filename := "m.py" } decoratedChain).map (·.keys.length)) = [1, 1, 1, 1, 3, 2, 1, 1] := by
  decide +kernel

end Coverage.Pass
