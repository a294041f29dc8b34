import Mathlib.Algebra.GroupWithZero.Nat
import Mathlib.Data.List.Nodup
import Coverage.Proofs.Pass.Arms
import Coverage.Proofs.Pass.Woven

/-!
# Each event is decided once

The sites of a tree mention every event at most once: the start of a statement is decided where its block is
walked, the entry and the arms of a node where the node itself is. So the identities of a tree in which no
identity is used twice tell its events apart.
-/

namespace Coverage.Pass

open Syntax Program

/-- What decides about an event besides its start: a node is silent about its entry and all its arms. -/
def silences (i : NodeId) : Event → Bool
  | .started _ => false
  | .entered j => i == j
  | .took j _ => i == j

def Site.mentions (event : Event) : Site → Nat
  | .unit e _ _ _ => if e = event then 1 else 0
  | .fork _ _ arms => (arms.map (·.1)).count event
  | .quiet e => if e = event then 1 else 0
  | .silent i => if silences i event then 1 else 0

def mentions (event : Event) (sites : List Site) : Nat := (sites.map (Site.mentions event)).sum

@[simp]
theorem mentions_nil (event : Event) : mentions event [] = 0 := rfl

@[simp]
theorem mentions_cons (event : Event) (site : Site) (sites : List Site) :
    mentions event (site :: sites) = site.mentions event + mentions event sites := by
  simp [mentions]

@[simp]
theorem mentions_append (event : Event) (a b : List Site) :
    mentions event (a ++ b) = mentions event a + mentions event b := by
  simp [mentions]

/-- The arms of a `try` come in pairs; a statement has no name, and a function has one. -/
def Site.Proper : Site → Prop
  | .unit _ kind _ name => kind = .statement ∧ name = none ∨ kind = .function ∧ name.isSome = true
  | .fork .tryBody _ arms => arms = [] ∨ arms.length = 2
  | _ => True

/-- Sites that decide about entries and arms of the nodes `own` and about starts of the nodes `below`, each at
most once for each time the node is listed. -/
structure Accounts (own below : List NodeId) (sites : List Site) : Prop where
  started : ∀ i, mentions (.started i) sites ≤ below.count i
  entered : ∀ i, mentions (.entered i) sites ≤ own.count i
  took : ∀ i a, mentions (.took i a) sites ≤ own.count i
  proper : ∀ site ∈ sites, site.Proper

namespace Accounts

variable {own own' below below' : List NodeId} {a b : List Site}

theorem nil : Accounts own below [] := by
  constructor <;> simp

/-- Events of two parts are accounted for side by side. -/
theorem append (h : Accounts own below a) (h' : Accounts own' below' b) :
    Accounts (own ++ own') (below ++ below') (a ++ b) where
  started i := by
    simpa using Nat.add_le_add (h.started i) (h'.started i)
  entered i := by
    simpa using Nat.add_le_add (h.entered i) (h'.entered i)
  took i a := by
    simpa using Nat.add_le_add (h.took i a) (h'.took i a)
  proper site hsite := by
    rcases List.mem_append.1 hsite with hsite | hsite
    · exact h.proper site hsite
    · exact h'.proper site hsite

theorem conv (h : Accounts own below a) (hown : ∀ i, own.count i ≤ own'.count i)
    (hbelow : ∀ i, below.count i ≤ below'.count i) (same : a = b) : Accounts own' below' b := by
  subst same
  exact ⟨fun i ↦ Nat.le_trans (h.started i) (hbelow i), fun i ↦ Nat.le_trans (h.entered i) (hown i),
    fun i a ↦ Nat.le_trans (h.took i a) (hown i), h.proper⟩

/-- Sites that decide about less. -/
theorem fewer (h : Accounts own below a) (hle : ∀ event, mentions event b ≤ mentions event a)
    (hproper : ∀ site ∈ b, site.Proper) : Accounts own below b :=
  ⟨fun i ↦ Nat.le_trans (hle _) (h.started i), fun i ↦ Nat.le_trans (hle _) (h.entered i),
    fun i a ↦ Nat.le_trans (hle _) (h.took i a), hproper⟩

end Accounts

/-! ## Single sites -/

theorem accounts_started (i : NodeId) (span : Span) :
    Accounts [] [i] [.unit (.started i) .statement span none] where
  started j := by simp [Site.mentions, List.count_cons]
  entered j := by simp [Site.mentions]
  took j a := by simp [Site.mentions]
  proper site hsite := by simp_all [Site.Proper]

theorem accounts_entered (i : NodeId) (span : Span) (name : String) :
    Accounts [i] [] [.unit (.entered i) .function span (some name)] where
  started j := by simp [Site.mentions]
  entered j := by simp [Site.mentions, List.count_cons]
  took j a := by simp [Site.mentions]
  proper site hsite := by simp_all [Site.Proper]

theorem accounts_silent (i : NodeId) : Accounts [i] [] [.silent i] where
  started j := by simp [Site.mentions, silences]
  entered j := by simp [Site.mentions, silences, List.count_cons]
  took j a := by simp [Site.mentions, silences, List.count_cons]
  proper site hsite := by simp_all [Site.Proper]

theorem accounts_quietStarted (i : NodeId) : Accounts [] [i] [.quiet (.started i)] where
  started j := by simp [Site.mentions, List.count_cons]
  entered j := by simp [Site.mentions]
  took j a := by simp [Site.mentions]
  proper site hsite := by simp_all [Site.Proper]

theorem accounts_hush (ids : List NodeId) : Accounts ids ids (hush ids) := by
  induction ids with
  | nil => exact .nil
  | cons i ids ih => exact ((accounts_quietStarted i).append (accounts_silent i)).append ih

theorem count_took_numbered (i j : NodeId) (a b : Nat) (spans : List Span) :
    ((numbered i a spans).map (·.1)).count (.took j b) = if i = j ∧ a ≤ b ∧ b < a + spans.length then 1 else 0 := by
  induction spans generalizing a with
  | nil => simp [numbered]
  | cons span spans ih =>
    simp only [numbered, List.map_cons, List.count_cons, ih, List.length_cons, beq_iff_eq, Event.took.injEq]
    split <;> split <;> grind

theorem count_numbered_of_not_took {event : Event} (h : ∀ i a, event ≠ .took i a) (i : NodeId) (a : Nat)
    (spans : List Span) : ((numbered i a spans).map (·.1)).count event = 0 := by
  induction spans generalizing a with
  | nil => rfl
  | cons span spans ih => simp [numbered, ih, (h i a).symm]

/-- The arms of one node. -/
theorem accounts_fork {construct : Construct} {span : Span} {spans : List Span} (i : NodeId)
    (paired : construct = .tryBody → spans = [] ∨ spans.length = 2) :
    Accounts [i] [] [.fork construct span (numbered i 0 spans)] where
  started j := by simp [Site.mentions, count_numbered_of_not_took]
  entered j := by simp [Site.mentions, count_numbered_of_not_took]
  took j a := by
    simp only [mentions_cons, mentions_nil, Site.mentions, count_took_numbered, Nat.add_zero]
    split <;> simp_all
  proper site hsite := by
    obtain rfl := List.mem_singleton.1 hsite
    cases construct with
    | tryBody =>
      rcases paired rfl with rfl | htwo
      · exact .inl rfl
      · exact .inr ((length_numbered ..).trans htwo)
    | _ => trivial

/-! ## Trees -/

section Trees

variable {plan : Plan} {marks : Marks}

/-- A node decides about its own entry and arms, not about its start. -/
def NodeAccounts (plan : Plan) (marks : Marks) : Node → Prop
  | .gap => True
  | .mk i c p fs => Accounts (i :: fieldsIds fs) (fieldsIds fs) (sites plan marks (.mk i c p fs))

theorem NodeAccounts.inner {n : Node} (h : NodeAccounts plan marks n) :
    Accounts n.ids n.ids (sites plan marks n) := by
  cases n with
  | gap => exact .nil
  | mk i c p fs =>
    refine Accounts.conv h (fun _ ↦ Nat.le_refl _) (fun j ↦ ?_) rfl
    rw [Node.ids, List.count_cons]
    exact Nat.le_add_right ..

theorem nodeAccounts_mk {i : NodeId} {c : NodeClass} {p : Place} {fs : List Field}
    (h : marks.contains i = false → Accounts (i :: fieldsIds fs) (fieldsIds fs) (sites plan marks (.mk i c p fs))) :
    NodeAccounts plan marks (.mk i c p fs) := by
  cases held : marks.contains i with
  | true =>
    rw [NodeAccounts, sites_of_marked held]
    exact (accounts_silent i).append (accounts_hush (fieldsIds fs))
  | false => exact h held

theorem spans_paired {arms : Except Unlocated (List Span)} (h : ∀ spans, arms = .ok spans → spans.length = 2) :
    spansOf arms = [] ∨ (spansOf arms).length = 2 := by
  cases arms with
  | error => exact .inl rfl
  | ok spans => exact .inr (h spans rfl)

section Nodes

variable {i : NodeId} {p : Place}

theorem accounts_module {body : List Node} {ignores : Field}
    (hb : Accounts (nodesIds body) (nodesIds body) (blockSites plan marks true body)) :
    NodeAccounts plan marks (.mk i .module p [.many body, ignores]) := by
  refine nodeAccounts_mk fun held ↦ ?_
  rw [sites, if_neg (by simp [held])]
  refine hb.conv (fun j ↦ ?_) (fun j ↦ ?_) rfl <;>
  · simp only [fieldsIds_cons, Field.ids_many, List.count_append, List.count_cons]
    omega

theorem accounts_classDef {name : Field} {bases keywords body decorators : List Node}
    (hds : Accounts (nodesIds decorators) (nodesIds decorators) (allSites plan marks decorators))
    (hbs : Accounts (nodesIds bases) (nodesIds bases) (allSites plan marks bases))
    (hks : Accounts (nodesIds keywords) (nodesIds keywords) (allSites plan marks keywords))
    (hb : Accounts (nodesIds body) (nodesIds body) (blockSites plan marks true body)) :
    NodeAccounts plan marks
      (.mk i .classDef p [name, .many bases, .many keywords, .many body, .many decorators]) := by
  refine nodeAccounts_mk fun held ↦ ?_
  rw [sites, if_neg (by simp [held])]
  refine (((hds.append hbs).append hks).append hb).conv (fun j ↦ ?_) (fun j ↦ ?_) rfl <;>
  · simp only [fieldsIds_cons, Field.ids_many, List.count_append, List.count_cons]
    omega

theorem accounts_functionDef {async : Bool} {name : String} {args : Node} {body decorators : List Node}
    {returns comment : Field}
    (hds : Accounts (nodesIds decorators) (nodesIds decorators) (allSites plan marks decorators))
    (ha : NodeAccounts plan marks args)
    (hb : Accounts (nodesIds body) (nodesIds body) (blockSites plan marks true body)) :
    NodeAccounts plan marks (.mk i (.functionDef async) p
      [.text name, .child args, .many body, .many decorators, returns, comment]) := by
  refine nodeAccounts_mk fun held ↦ ?_
  rw [sites, if_neg (by simp [held])]
  refine ((accounts_entered i ..).append ((hds.append ha.inner).append hb)).conv (fun j ↦ ?_) (fun j ↦ ?_) rfl <;>
  · simp only [fieldsIds_cons, Field.ids_child, Field.ids_many, List.count_append, List.count_cons,
      List.count_nil]
    omega

theorem accounts_lambda {args body : Node} (ha : NodeAccounts plan marks args)
    (hb : NodeAccounts plan marks body) :
    NodeAccounts plan marks (.mk i .lambda p [.child args, .child body]) := by
  refine nodeAccounts_mk fun held ↦ ?_
  rw [sites, if_neg (by simp [held])]
  refine ((accounts_entered i ..).append (ha.inner.append hb.inner)).conv (fun j ↦ ?_) (fun j ↦ ?_) rfl <;>
  · simp only [fieldsIds_cons, Field.ids_child, List.count_append, List.count_cons, List.count_nil]
    omega

theorem accounts_ifExp {test body orelse : Node} (ht : NodeAccounts plan marks test)
    (hb : NodeAccounts plan marks body) (ho : NodeAccounts plan marks orelse) :
    NodeAccounts plan marks (.mk i .ifExp p [.child test, .child body, .child orelse]) := by
  refine nodeAccounts_mk fun held ↦ ?_
  rw [sites, if_neg (by simp [held])]
  refine ((accounts_fork i (by simp)).append ((ht.inner.append hb.inner).append ho.inner)).conv
    (fun j ↦ ?_) (fun j ↦ ?_) rfl <;>
  · simp only [fieldsIds_cons, Field.ids_child, List.count_append, List.count_cons, List.count_nil]
    omega

theorem accounts_boolOp {op : Field} {values : List Node}
    (hvs : Accounts (nodesIds values) (nodesIds values) (allSites plan marks values)) :
    NodeAccounts plan marks (.mk i .boolOp p [op, .many values]) := by
  refine nodeAccounts_mk fun held ↦ ?_
  rw [sites, if_neg (by simp [held])]
  refine ((accounts_fork i (by simp)).append hvs).conv (fun j ↦ ?_) (fun j ↦ ?_) rfl <;>
  · simp only [fieldsIds_cons, Field.ids_many, List.count_append, List.count_cons, List.count_nil]
    omega

theorem accounts_whileLoop {test : Node} {body orelse : List Node} (ht : NodeAccounts plan marks test)
    (hb : Accounts (nodesIds body) (nodesIds body) (blockSites plan marks false body))
    (ho : Accounts (nodesIds orelse) (nodesIds orelse) (blockSites plan marks false orelse)) :
    NodeAccounts plan marks (.mk i .whileLoop p [.child test, .many body, .many orelse]) := by
  refine nodeAccounts_mk fun held ↦ ?_
  rw [sites, if_neg (by simp [held])]
  refine ((accounts_fork i (by simp)).append ((ht.inner.append hb).append ho)).conv
    (fun j ↦ ?_) (fun j ↦ ?_) rfl <;>
  · simp only [fieldsIds_cons, Field.ids_child, Field.ids_many, List.count_append, List.count_cons,
      List.count_nil]
    omega

theorem accounts_forLoop {async : Bool} {target iter : Node} {body orelse : List Node} {comment : Field}
    (ht : NodeAccounts plan marks target) (hi : NodeAccounts plan marks iter)
    (hb : Accounts (nodesIds body) (nodesIds body) (blockSites plan marks false body))
    (ho : Accounts (nodesIds orelse) (nodesIds orelse) (blockSites plan marks false orelse)) :
    NodeAccounts plan marks
      (.mk i (.forLoop async) p [.child target, .child iter, .many body, .many orelse, comment]) := by
  refine nodeAccounts_mk fun held ↦ ?_
  rw [sites, if_neg (by simp [held])]
  refine ((accounts_fork i (by simp)).append (((ht.inner.append hi.inner).append hb).append ho)).conv
    (fun j ↦ ?_) (fun j ↦ ?_) rfl <;>
  · simp only [fieldsIds_cons, Field.ids_child, Field.ids_many, List.count_append, List.count_cons,
      List.count_nil]
    omega

theorem accounts_tryStmt {star : Bool} {body handlers orelse finalbody : List Node}
    (hb : Accounts (nodesIds body) (nodesIds body) (blockSites plan marks false body))
    (hh : Accounts (nodesIds handlers) (nodesIds handlers) (handlerSites plan marks handlers))
    (ho : Accounts (nodesIds orelse) (nodesIds orelse) (blockSites plan marks false orelse))
    (hf : Accounts (nodesIds finalbody) (nodesIds finalbody) (blockSites plan marks false finalbody)) :
    NodeAccounts plan marks
      (.mk i (.tryStmt star) p [.many body, .many handlers, .many orelse, .many finalbody]) := by
  have htwo : spansOf (tryArms body handlers finalbody) = [] ∨
      (spansOf (tryArms body handlers finalbody)).length = 2 :=
    spans_paired fun _ h ↦ (tryArms_ok h).1
  refine nodeAccounts_mk fun held ↦ ?_
  rw [sites, if_neg (by simp [held])]
  refine ((accounts_fork i fun _ ↦ htwo).append (((hb.append hh).append ho).append hf)).conv
    (fun j ↦ ?_) (fun j ↦ ?_) rfl <;>
  · simp only [fieldsIds_cons, Field.ids_many, List.count_append, List.count_cons, List.count_nil]
    omega

/-- A `match` that always selects a case has no arm for none, and is silent about it. -/
theorem accounts_arms_match (i : NodeId) (span : Span) {k : Nat} {spans : List Span} (h : spans.length ≤ k) :
    Accounts [i] [] [.fork .matchCases span (numbered i 0 spans), .quiet (.took i k)] where
  started j := by simp [Site.mentions, count_numbered_of_not_took]
  entered j := by simp [Site.mentions, count_numbered_of_not_took]
  took j a := by
    simp only [mentions_cons, mentions_nil, Site.mentions, count_took_numbered, List.count_cons, List.count_nil]
    split <;> split <;> simp_all
    omega
  proper site hsite := by
    simp only [List.mem_cons, List.not_mem_nil, or_false] at hsite
    rcases hsite with rfl | rfl <;> trivial

theorem accounts_matchStmt {subject : Node} {cases : List Node} (hs : NodeAccounts plan marks subject)
    (hcs : Accounts (nodesIds cases) (nodesIds cases) (caseSites plan marks cases)) :
    NodeAccounts plan marks (.mk i .matchStmt p [.child subject, .many cases]) := by
  refine nodeAccounts_mk fun held ↦ ?_
  rw [sites, if_neg (by simp [held])]
  cases hd : (cases.getLast?.map (·.isDefaultCase)).getD false with
  | false =>
    refine ((accounts_fork i (by simp)).append (hs.inner.append hcs)).conv (fun j ↦ ?_) (fun j ↦ ?_) rfl <;>
    · simp only [fieldsIds_cons, Field.ids_child, Field.ids_many, List.count_append, List.count_cons,
        List.count_nil]
      omega
  | true =>
    have hlen : (spansOf (matchArms subject cases true)).length ≤ cases.length := by
      cases harms : matchArms subject cases true with
      | error => exact Nat.zero_le _
      | ok spans => exact Nat.le_of_eq (matchArms_ok harms).2
    refine ((accounts_arms_match i _ hlen).append (hs.inner.append hcs)).conv (fun j ↦ ?_) (fun j ↦ ?_) rfl <;>
    · simp only [fieldsIds_cons, Field.ids_child, Field.ids_many, List.count_append, List.count_cons,
        List.count_nil]
      omega

theorem accounts_plain {c : NodeClass} {fs : List Field} (noRule : hasRule c fs = false)
    (hfs : Accounts (fieldsIds fs) (fieldsIds fs) (fieldsSites plan marks c.fieldNames fs)) :
    NodeAccounts plan marks (.mk i c p fs) := by
  refine nodeAccounts_mk fun held ↦ ?_
  rw [sites_of_not_hasRule held noRule]
  refine hfs.conv (fun j ↦ ?_) (fun j ↦ Nat.le_refl _) rfl
  rw [List.count_cons]
  exact Nat.le_add_right ..

end Nodes

/-! ## Chains -/

/-- Each link of a chain decides about its own arms. -/
def ChainAccounts (plan : Plan) (marks : Marks) (i : NodeId) (p : Place) (fs : List Field) : Prop :=
  Accounts (i :: fieldsIds fs) (fieldsIds fs)
    ((chainEvents plan marks (.mk i .ifStmt p fs)).map .quiet ++ chainSites plan marks i fs)

theorem accounts_quietArms (i : NodeId) : Accounts [i] [] [.quiet (.took i 0), .quiet (.took i 1)] where
  started j := by simp [Site.mentions]
  entered j := by simp [Site.mentions]
  took j a := by
    simp only [mentions_cons, mentions_nil, Site.mentions, List.count_cons, List.count_nil, Event.took.injEq]
    split <;> split <;> (simp_all; try omega)
  proper site hsite := by
    simp only [List.mem_cons, List.not_mem_nil, or_false] at hsite
    rcases hsite with rfl | rfl <;> trivial

theorem mentions_quiet (event : Event) (events : List Event) :
    mentions event (events.map .quiet) = events.count event := by
  induction events with
  | nil => rfl
  | cons e events ih => simp [Site.mentions, ih, List.count_cons, Nat.add_comm]

theorem map_fst_zip_sublist {α β : Type} (xs : List α) (ys : List β) : ((xs.zip ys).map (·.1)).Sublist xs := by
  rw [List.map_zip_eq_zipWith]
  induction xs generalizing ys with
  | nil => simp
  | cons x xs ih =>
    cases ys with
    | nil => simp
    | cons y ys => simpa using ih ys

section Chains

variable {i : NodeId} {p : Place} {test : Node} {body orelse : List Node}

theorem chainAccounts_last (hlast : hasNextLink plan marks orelse = false) (ht : NodeAccounts plan marks test)
    (hb : Accounts (nodesIds body) (nodesIds body) (blockSites plan marks false body))
    (ho : Accounts (nodesIds orelse) (nodesIds orelse) (blockSites plan marks false orelse)) :
    ChainAccounts plan marks i p [.child test, .many body, .many orelse] := by
  unfold ChainAccounts
  rw [chainEvents_last hlast, chainSites_last hlast]
  refine ((accounts_quietArms i).append ((ht.inner.append hb).append ho)).conv (fun j ↦ ?_) (fun j ↦ ?_) rfl <;>
  · simp only [fieldsIds_cons, Field.ids_child, Field.ids_many, List.count_append, List.count_cons,
      List.count_nil]
    omega

/-- A link accounts for its own arm and passes the others on. -/
theorem chainAccounts_link {j : NodeId} {q : Place} {fs : List Field}
    (hnext : continues plan marks (.mk j .ifStmt q fs) = true) (ht : NodeAccounts plan marks test)
    (hb : Accounts (nodesIds body) (nodesIds body) (blockSites plan marks false body))
    (hn : ChainAccounts plan marks j q fs) :
    ChainAccounts plan marks i p [.child test, .many body, .many [.mk j .ifStmt q fs]] := by
  unfold ChainAccounts
  rw [chainEvents_next hnext, chainSites_next hnext]
  -- The next link decides about its arms first, so the sites are the same up to their order.
  have h := ((accounts_quietArms i).append ((accounts_quietStarted j).append (ht.inner.append hb))).append hn
  refine Accounts.conv (h.fewer (fun event ↦ ?_) (fun site hsite ↦ h.proper site ?_)) (fun k ↦ ?_)
    (fun k ↦ ?_) rfl
  · simp only [mentions_append, mentions_cons, mentions_nil, List.map_cons, List.cons_append]
    omega
  · simp only [List.map_cons, List.cons_append, List.mem_append, List.mem_cons] at hsite ⊢
    tauto
  all_goals
    simp only [fieldsIds_cons, Field.ids_child, Field.ids_many, nodesIds, Node.ids, List.count_append,
      List.count_cons, List.count_nil]
    omega

/-- The arms of a chain are offered together. -/
theorem accounts_ifStmt {fs : List Field} (h : ChainAccounts plan marks i p fs) :
    NodeAccounts plan marks (.mk i .ifStmt p fs) := by
  refine nodeAccounts_mk fun held ↦ ?_
  rw [sites, if_neg (by simp [held])]
  refine Accounts.fewer h (fun event ↦ ?_) (fun site hsite ↦ ?_)
  · rw [mentions_append, mentions_quiet, mentions_cons, Site.mentions]
    refine Nat.add_le_add_right (List.Sublist.count_le event ?_) _
    exact map_fst_zip_sublist ..
  · rcases List.mem_cons.1 hsite with rfl | hsite
    · trivial
    · exact h.proper site (List.mem_append_right _ hsite)

end Chains

/-! ## Lists -/

section Lists

theorem blockAccounts_cons {doc : Bool} {s : Node} {rest : List Node} (hs : NodeAccounts plan marks s)
    (hrest : Accounts (nodesIds rest) (nodesIds rest) (blockSites plan marks false rest)) :
    Accounts (nodesIds (s :: rest)) (nodesIds (s :: rest)) (blockSites plan marks doc (s :: rest)) := by
  rw [blockSites, nodesIds]
  refine Accounts.append ?_ hrest
  split
  · exact accounts_hush s.ids
  · cases s with
    | gap => exact .nil
    | mk i c p fs => exact (accounts_started i ..).append hs

end Lists

mutual
/-- Every event of a node is decided at most once. -/
theorem nodeAccounts : ∀ n : Node, NodeAccounts plan marks n
  | .gap => trivial
  | .mk i c p fs => by
    cases hrule : hasRule c fs with
    | false => exact accounts_plain hrule (fieldsAccounts c.fieldNames fs)
    | true =>
      unfold hasRule at hrule
      split at hrule
      · exact accounts_module (blockAccounts true _)
      · exact accounts_classDef (allAccounts _) (allAccounts _) (allAccounts _) (blockAccounts true _)
      · exact accounts_functionDef (allAccounts _) (nodeAccounts _) (blockAccounts true _)
      · exact accounts_lambda (nodeAccounts _) (nodeAccounts _)
      · exact accounts_ifStmt (chainAccounts i p _)
      · exact accounts_ifExp (nodeAccounts _) (nodeAccounts _) (nodeAccounts _)
      · exact accounts_boolOp (allAccounts _)
      · exact accounts_matchStmt (nodeAccounts _) (caseAccounts _)
      · exact accounts_whileLoop (nodeAccounts _) (blockAccounts false _) (blockAccounts false _)
      · exact accounts_forLoop (nodeAccounts _) (nodeAccounts _) (blockAccounts false _) (blockAccounts false _)
      · exact accounts_tryStmt (blockAccounts false _) (handlerAccounts _) (blockAccounts false _)
          (blockAccounts false _)
      · cases hrule
termination_by n => sizeOf n

theorem chainAccounts (i : NodeId) (p : Place) (fs : List Field) : ChainAccounts plan marks i p fs := by
  cases hlink : isLink (.mk i .ifStmt p fs) with
  | false =>
    obtain ⟨hevents, hsites⟩ := chain_of_not_isLink hlink plan marks
    rw [ChainAccounts, hevents, hsites]
    exact .nil
  | true =>
    unfold isLink at hlink
    split at hlink
    next test body orelse heq =>
      cases heq
      cases hlast : hasNextLink plan marks orelse with
      | false =>
        exact chainAccounts_last hlast (nodeAccounts test) (blockAccounts false body) (blockAccounts false orelse)
      | true =>
        obtain ⟨n, rfl, hnext⟩ := hasNextLink_eq_true hlast
        obtain ⟨j, q, test', body', orelse', rfl⟩ := continues_link hnext
        exact chainAccounts_link hnext (nodeAccounts test) (blockAccounts false body) (chainAccounts j q _)
    next => cases hlink
termination_by sizeOf fs

theorem blockAccounts (doc : Bool) :
    ∀ ns : List Node, Accounts (nodesIds ns) (nodesIds ns) (blockSites plan marks doc ns)
  | [] => .nil
  | s :: rest => blockAccounts_cons (nodeAccounts s) (blockAccounts false rest)
termination_by ns => sizeOf ns

theorem allAccounts : ∀ ns : List Node, Accounts (nodesIds ns) (nodesIds ns) (allSites plan marks ns)
  | [] => .nil
  | n :: ns => by
    rw [allSites, nodesIds]
    exact (nodeAccounts n).inner.append (allAccounts ns)
termination_by ns => sizeOf ns

theorem caseAccounts (cs : List Node) : Accounts (nodesIds cs) (nodesIds cs) (caseSites plan marks cs) := by
  unfold caseSites
  split
  next i c p pattern guard body rest =>
    refine ((((accounts_hush pattern.ids).append (fieldAccounts guard)).append
      (blockAccounts false body)).append (caseAccounts rest)).conv (fun j ↦ ?_) (fun j ↦ ?_) rfl <;>
    · simp only [nodesIds, Node.ids, fieldsIds_cons, Field.ids_many, List.count_append, List.count_cons]
      omega
  next => exact .nil
termination_by sizeOf cs

theorem handlerAccounts (hs : List Node) : Accounts (nodesIds hs) (nodesIds hs) (handlerSites plan marks hs) := by
  unfold handlerSites
  split
  next i c p type name body rest =>
    refine (((fieldAccounts type).append (blockAccounts false body)).append (handlerAccounts rest)).conv
      (fun j ↦ ?_) (fun j ↦ ?_) rfl <;>
    · simp only [nodesIds, Node.ids, fieldsIds_cons, Field.ids_many, List.count_append, List.count_cons]
      omega
  next => exact .nil
termination_by sizeOf hs

theorem fieldsAccounts : ∀ (names : List String) (fs : List Field),
    Accounts (fieldsIds fs) (fieldsIds fs) (fieldsSites plan marks names fs)
  | [], _ => by
    rw [fieldsSites]
    · exact .nil
    · simp
  | _ :: _, [] => .nil
  | name :: names, f :: fs => by
    rw [fieldsSites, fieldsIds_cons]
    refine Accounts.append ?_ (fieldsAccounts names fs)
    split
    · exact .nil
    · exact fieldAccounts f
termination_by _ fs => sizeOf fs

theorem fieldAccounts : ∀ f : Field, Accounts f.ids f.ids (fieldSites plan marks f)
  | .child n => by
    rw [fieldSites, Field.ids_child]
    exact (nodeAccounts n).inner
  | .many ns => by
    rw [fieldSites, Field.ids_many]
    split
    · exact blockAccounts false ns
    · exact allAccounts ns
  | .none | .text _ | .number _ | .constant _ | .names _ => .nil
termination_by f => sizeOf f
end

end Trees

end Coverage.Pass
