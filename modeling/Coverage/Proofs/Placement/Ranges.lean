import Coverage.Proofs.Counting
import Coverage.Proofs.Pass.Reach

/-!
# What entries are about

An entry of a record counts an event of a node of the tree, and its span is the range of what the event starts: of the
statement, of the function, or of the clause or expression that an arm leads to. An arm of an `if` chain is offered with
the whole chain, but it is an arm of one of its links.
-/

namespace Coverage.Syntax

section Identities

variable {a b root : Node} {i : NodeId}

theorem mem_ids_of_id? (h : a.id? = some i) : i ∈ a.ids := by
  cases a with
  | gap => cases h
  | mk j c p fs =>
    cases h
    exact List.mem_cons_self

/-- No node below another has its identity. -/
theorem eq_of_mem_nodes (hids : b.ids.Nodup) (ha : a.id? = some i) (hb : b.id? = some i) (h : a ∈ b.nodes) :
    a = b := by
  rcases mem_nodes h with heq | ⟨k, hk, hak⟩
  · exact heq
  cases b with
  | gap => cases hk
  | mk j c p fs =>
    obtain rfl : j = i := Option.some.inj hb
    rw [ids_mk] at hids
    have hbelow : j ∈ k.ids := (ids_sublist hak).subset (mem_ids_of_id? ha)
    exact absurd (List.mem_flatMap.2 ⟨k, hk, hbelow⟩) (List.nodup_cons.1 hids).1

/-- In a tree without repeated identities, an identity belongs to one node. -/
theorem eq_of_id? (hids : root.ids.Nodup) (ha : a ∈ root.nodes) (hb : b ∈ root.nodes) (hia : a.id? = some i)
    (hib : b.id? = some i) : a = b := by
  rcases related_or_unrelated hids ha hb with hapart | hbelow | hbelow
  · exact absurd (mem_ids_of_id? hib) (hapart i (mem_ids_of_id? hia))
  · exact eq_of_mem_nodes (hids.sublist (ids_sublist hb)) hia hib hbelow
  · exact (eq_of_mem_nodes (hids.sublist (ids_sublist ha)) hib hia hbelow).symm

end Identities

section Fields

variable {i : NodeId} {c : NodeClass} {p : Place} {fs : List Field} {f : Field} {n : Node} {ns : List Node}

theorem nodes_of_field (h : f ∈ fs) : f.children.flatMap Node.nodes ⊆ (Node.mk i c p fs).nodes := by
  intro m hm
  obtain ⟨k, hk, hm⟩ := List.mem_flatMap.1 hm
  exact mem_nodes_of_child (mem_children h hk) hm

theorem nodes_of_child (h : .child n ∈ fs) : n.nodes ⊆ (Node.mk i c p fs).nodes := by
  simpa [Field.children] using nodes_of_field (i := i) (c := c) (p := p) h

theorem nodes_of_many (h : .many ns ∈ fs) : nodesNodes ns ⊆ (Node.mk i c p fs).nodes := by
  rw [nodesNodes_eq_flatMap]
  exact nodes_of_field h

theorem mem_nodes_of_many {m : Node} (hns : .many ns ∈ n.fields) (hm : m ∈ ns) (hgap : m ≠ .gap) : m ∈ n.nodes := by
  cases n with
  | gap => cases hns
  | mk i c p fs => exact child_mem_nodes (many_subset_children hns hm) hgap

theorem nodesNodes_subset {ms : List Node} (h : ns ⊆ ms) : nodesNodes ns ⊆ nodesNodes ms := by
  rw [nodesNodes_eq_flatMap, nodesNodes_eq_flatMap]
  intro n hn
  obtain ⟨m, hm, hn⟩ := List.mem_flatMap.1 hn
  exact List.mem_flatMap.2 ⟨m, h hm, hn⟩

end Fields

end Coverage.Syntax

namespace Coverage.Pass

open Syntax Program

/-! ## Arms -/

/-- The range of a clause: of its block, or of the header if there is no `else`. -/
def clauseRange? (header : Node) (body orelse : List Node) : Nat → Option Span
  | 0 => (locateAll body).toOption
  | 1 => (if orelse.isEmpty then locate header else locateAll orelse).toOption
  | _ => none

/-- The range of an arm: of its block or expression, or of the header of a statement without a clause for it. -/
def armRange? : Node → Nat → Option Span
  | .mk _ .ifStmt _ [.child test, .many body, .many orelse], a => clauseRange? test body orelse a
  | .mk _ .whileLoop _ [.child test, .many body, .many orelse], a => clauseRange? test body orelse a
  | .mk _ (.forLoop _) _ [.child _, .child iter, .many body, .many orelse, _], a => clauseRange? iter body orelse a
  | .mk _ .matchStmt _ [.child subject, .many cases], a => ((cases[a]?).elim (locate subject) caseArm).toOption
  | .mk _ (.tryStmt _) _ [.many body, .many handlers, .many _, .many finalbody], a =>
    (spansOf (tryArms body handlers finalbody))[a]?
  | n, a => (armExpr? n a).map spanOf

section Arms

variable {plan : Plan} {marks : Marks} {header test subject : Node} {body orelse values cases : List Node}
  {spans : List Span} {a : Nat}

theorem getElem?_mapM {ε α β : Type} {f : α → Except ε β} {xs : List α} {ys : List β} (h : xs.mapM f = .ok ys)
    (a : Nat) : ys[a]? = xs[a]?.bind fun x ↦ (f x).toOption := by
  induction xs generalizing ys a with
  | nil =>
    cases h
    rfl
  | cons x xs ih =>
    rw [List.mapM_cons] at h
    obtain ⟨y, hy, h⟩ := except_bind_eq_ok.1 h
    obtain ⟨rest, hrest, h⟩ := except_bind_eq_ok.1 h
    cases h
    cases a with
    | zero => simp [hy, Except.toOption]
    | succ a => simpa using ih hrest a

theorem getElem?_clauses {span other : Span} (hbody : locateAll body = .ok span)
    (hother : (if orelse.isEmpty then locate header else locateAll orelse) = .ok other) (a : Nat) :
    [span, other][a]? = clauseRange? header body orelse a := by
  match a with
  | 0 =>
    rw [clauseRange?, hbody]
    rfl
  | 1 =>
    rw [clauseRange?, hother]
    rfl
  | a + 2 => rfl

theorem getElem?_loopArms (h : loopArms header body orelse = .ok spans) (a : Nat) :
    spans[a]? = clauseRange? header body orelse a := by
  unfold loopArms at h
  split at h
  all_goals
    rename_i hempty
    obtain ⟨other, hother, h⟩ := except_bind_eq_ok.1 h
    obtain ⟨span, hspan, h⟩ := except_bind_eq_ok.1 h
    cases h
    exact getElem?_clauses hspan (by rw [← hother]; simp [hempty]) a

/-- The arms of the last link of an `if` chain are its own clauses. -/
theorem getElem?_chainArms_last {i : NodeId} {p : Place} (hlast : hasNextLink plan marks orelse = false)
    (h : chainArms plan marks (.mk i .ifStmt p [.child test, .many body, .many orelse]) = .ok spans) (a : Nat) :
    spans[a]? = clauseRange? test body orelse a := by
  have hpair : ∀ {x : Except Unlocated Span}, (do return [← locateAll body, ← x]) = Except.ok spans →
      (if orelse.isEmpty then locate test else locateAll orelse) = x → spans[a]? = clauseRange? test body orelse a := by
    intro x h hx
    obtain ⟨span, hspan, h⟩ := except_bind_eq_ok.1 h
    obtain ⟨other, hother, h⟩ := except_bind_eq_ok.1 h
    cases h
    exact getElem?_clauses hspan (hx.trans hother) a
  match orelse, hlast, h with
  | [], _, h => exact hpair h rfl
  | [n], hlast, h =>
    rw [chainArms, if_neg (by simpa [hasNextLink] using hlast)] at h
    exact hpair h rfl
  | n :: m :: rest, _, h =>
    rw [chainArms] at h
    · exact hpair h rfl
    all_goals simp

/-- The arms of a `match` by their positions. -/
theorem getElem?_matchArms {hasDefault : Bool} (h : matchArms subject cases hasDefault = .ok spans) {span : Span}
    (ha : spans[a]? = some span) : ((cases[a]?).elim (locate subject) caseArm).toOption = some span := by
  unfold matchArms at h
  obtain ⟨arms, harms, h⟩ := except_bind_eq_ok.1 h
  have hlen : arms.length = cases.length := length_of_mapM_ok harms
  have hcase : ∀ {span}, arms[a]? = some span → ((cases[a]?).elim (locate subject) caseArm).toOption = some span := by
    intro span hspan
    rw [getElem?_mapM harms] at hspan
    obtain ⟨k, hk, hspan⟩ := Option.bind_eq_some_iff.1 hspan
    rw [hk]
    exact hspan
  cases hasDefault with
  | true =>
    cases h
    exact hcase ha
  | false =>
    obtain ⟨last, hlast, h⟩ := except_bind_eq_ok.1 h
    cases h
    rcases Nat.lt_or_ge a arms.length with hlt | hge
    · rw [List.getElem?_append_left hlt] at ha
      exact hcase ha
    · rw [List.getElem?_append_right hge] at ha
      obtain ⟨hzero, rfl⟩ : a - arms.length = 0 ∧ last = span := by
        cases hpos : a - arms.length with
        | zero => simpa [hpos] using ha
        | succ k => simp [hpos] at ha
      have hnone : cases[a]? = none := List.getElem?_eq_none (by omega)
      rw [hnone, Option.elim_none, hlast]
      rfl

/-- The arms of an `if` chain are arms of its links. -/
theorem exists_link {n : Node} {event : Event} {span : Span} (h : chainArms plan marks n = .ok spans)
    (ha : ((chainEvents plan marks n).zip spans)[a]? = some (event, span)) :
    ∃ m ∈ n.nodes, ∃ j k, event = .took j k ∧ m.id? = some j ∧ armRange? m k = some span := by
  induction n using chainEvents.induct plan marks generalizing spans a with
  | case1 i p test body n hnext ih =>
    have hnext : continues plan marks n = true := hnext
    rw [chainEvents_next hnext] at ha
    rw [chainArms, if_pos hnext] at h
    obtain ⟨first, hfirst, h⟩ := except_bind_eq_ok.1 h
    obtain ⟨rest, hrest, h⟩ := except_bind_eq_ok.1 h
    cases h
    cases a with
    | zero =>
      cases ha
      exact ⟨_, self_mem_nodes Node.mk_ne_gap, i, 0, rfl, rfl,
        by simp [armRange?, clauseRange?, hfirst, Except.toOption]⟩
    | succ a =>
      obtain ⟨m, hm, hlink⟩ := ih hrest ha
      exact ⟨m, mem_nodes_of_child (mem_children (f := .many [n]) (by simp) (by simp [Field.children])) hm, hlink⟩
  | case2 i p test body orelse hlast =>
    have hlast : hasNextLink plan marks orelse = false := by
      rw [← Bool.not_eq_true]
      intro hnext
      obtain ⟨n, rfl, -⟩ := hasNextLink_eq_true hnext
      exact hlast n hnext rfl
    rw [chainEvents_last hlast, List.getElem?_zip_eq_some] at ha
    obtain ⟨hevent, hspan⟩ := ha
    rw [getElem?_chainArms_last hlast h] at hspan
    have hself : Node.mk i .ifStmt p [.child test, .many body, .many orelse] ∈
        (Node.mk i .ifStmt p [.child test, .many body, .many orelse]).nodes := self_mem_nodes Node.mk_ne_gap
    rcases a with _ | _ | a
    · cases hevent
      exact ⟨_, hself, i, 0, rfl, rfl, hspan⟩
    · cases hevent
      exact ⟨_, hself, i, 1, rfl, rfl, hspan⟩
    · cases hevent
  | case3 n hother =>
    have hnone : chainEvents plan marks n = [] := by
      rw [chainEvents]
      exact hother
    simp [hnone] at ha

end Arms

/-! ## Entries -/

/-- An entry of this kind and span counts an event of one of the nodes. -/
inductive Told (N : List Node) (e : Entry Kind) : Event → Prop
  | started {s i} (hs : s ∈ N) (id : s.id? = some i) (kind : e.kind = .statement) (span : spanOf s = e.span) :
    Told N e (.started i)
  | entered {n i} (hn : n ∈ N) (id : n.id? = some i) (kind : e.kind = .function) (span : spanOf n = e.span) :
    Told N e (.entered i)
  | took {n i a} (hn : n ∈ N) (id : n.id? = some i) (kind : e.kind = .branch) (span : armRange? n a = some e.span) :
    Told N e (.took i a)

theorem Site.Tells.key {site : Site} {e : Entry Kind} {event : Event} (h : site.Tells e event) :
    e.key = keyOf e.kind e.span := by
  cases h <;> rfl

/-- Whatever is offered for the sites is about the nodes. -/
def ToldAll (N : List Node) (sites : List Site) : Prop :=
  ∀ site ∈ sites, ∀ e event, site.Tells e event → Told N e event

section Sites

variable {N M : List Node} {a b : List Site}

theorem ToldAll.mono (h : ToldAll N a) (hNM : N ⊆ M) : ToldAll M a := by
  intro site hsite e event htells
  cases h site hsite e event htells with
  | started hs id kind span => exact .started (hNM hs) id kind span
  | entered hn id kind span => exact .entered (hNM hn) id kind span
  | took hn id kind span => exact .took (hNM hn) id kind span

theorem toldAll_nil : ToldAll N [] := fun _ hsite ↦ by cases hsite

theorem toldAll_cons {site : Site} (hsite : ∀ e event, site.Tells e event → Told N e event) (h : ToldAll N a) :
    ToldAll N (site :: a) := List.forall_mem_cons.2 ⟨hsite, h⟩

theorem ToldAll.append (h : ToldAll N a) (h' : ToldAll N b) : ToldAll N (a ++ b) :=
  List.forall_mem_append.2 ⟨h, h'⟩

theorem toldAll_quiet (event : Event) (h : ToldAll N a) : ToldAll N (.quiet event :: a) :=
  toldAll_cons (fun _ _ htells ↦ by cases htells) h

theorem toldAll_silent (i : NodeId) (h : ToldAll N a) : ToldAll N (.silent i :: a) :=
  toldAll_cons (fun _ _ htells ↦ by cases htells) h

theorem toldAll_hush (ids : List NodeId) : ToldAll N (hush ids) := by
  induction ids with
  | nil => exact toldAll_nil
  | cons i ids ih => exact toldAll_quiet _ (toldAll_silent i ih)

theorem toldAll_start (s : Node) : ToldAll s.nodes (startSites s) := by
  cases s with
  | gap => exact toldAll_nil
  | mk i c p fs =>
    refine toldAll_cons (fun e event htells ↦ ?_) toldAll_nil
    cases htells
    exact .started (self_mem_nodes Node.mk_ne_gap) rfl rfl rfl

theorem getElem?_numbered (i : NodeId) (b : Nat) (spans : List Span) (a : Nat) :
    (numbered i b spans)[a]? = spans[a]?.map fun span ↦ (.took i (b + a), span) := by
  induction spans generalizing a b with
  | nil => rfl
  | cons span spans ih =>
    cases a with
    | zero => rfl
    | succ a =>
      rw [numbered, List.getElem?_cons_succ, ih, List.getElem?_cons_succ, Nat.add_right_comm, Nat.add_assoc]

section Node

variable {i : NodeId} {c : NodeClass} {p : Place} {fs : List Field} {construct : Construct} {span : Span}

theorem ToldAll.child {n : Node} (h : ToldAll n.nodes a) (hn : .child n ∈ fs) : ToldAll (Node.mk i c p fs).nodes a :=
  h.mono (nodes_of_child hn)

theorem ToldAll.many {ns : List Node} (h : ToldAll (nodesNodes ns) a) (hns : .many ns ∈ fs) :
    ToldAll (Node.mk i c p fs).nodes a :=
  h.mono (nodes_of_many hns)

theorem toldAll_entry {name : Option String} (h : ToldAll (Node.mk i c p fs).nodes a) :
    ToldAll (Node.mk i c p fs).nodes (.unit (.entered i) .function (spanOf (.mk i c p fs)) name :: a) := by
  refine toldAll_cons (fun e event htells ↦ ?_) h
  cases htells
  exact .entered (self_mem_nodes Node.mk_ne_gap) rfl rfl rfl

/-- A decision point with its arms. -/
theorem toldAll_fork {spans : List Span}
    (harms : ∀ k armSpan, spans[k]? = some armSpan → armRange? (.mk i c p fs) k = some armSpan)
    (h : ToldAll (Node.mk i c p fs).nodes a) :
    ToldAll (Node.mk i c p fs).nodes (.fork construct span (numbered i 0 spans) :: a) := by
  refine toldAll_cons (fun e event htells ↦ ?_) h
  cases htells with
  | @arm _ _ armSpan _ k _ group hk =>
    rw [getElem?_numbered, Nat.zero_add] at hk
    obtain ⟨_, hspan, heq⟩ := Option.map_eq_some_iff.1 hk
    cases heq
    exact .took (self_mem_nodes Node.mk_ne_gap) rfl rfl (harms k _ hspan)

/-- A decision point with the arms that were found. -/
theorem toldAll_located {arms : Except Unlocated (List Span)}
    (harms : ∀ spans, arms = .ok spans → ∀ k armSpan, spans[k]? = some armSpan →
      armRange? (.mk i c p fs) k = some armSpan)
    (h : ToldAll (Node.mk i c p fs).nodes a) :
    ToldAll (Node.mk i c p fs).nodes (.fork construct span (numbered i 0 (spansOf arms)) :: a) := by
  refine toldAll_fork (fun k armSpan hk ↦ harms _ (spansOf_ne_nil fun hnil ↦ ?_) k armSpan hk) h
  simp [hnil] at hk

end Node

end Sites

section Trees

variable {plan : Plan} {marks : Marks}

mutual
/-- The ranges that the sites of a node tell are those of its arms. -/
theorem toldAll_sites : ∀ n : Node, ToldAll n.nodes (sites plan marks n)
  | .gap => toldAll_nil
  | .mk i c p fs => by
    unfold sites
    split
    · exact toldAll_silent i (toldAll_hush _)
    split
    next body _ => exact (toldAll_blockSites true body).many (by simp)
    next bases keywords body decorators =>
      exact ((((toldAll_allSites decorators).many (by simp)).append ((toldAll_allSites bases).many (by simp))).append
        ((toldAll_allSites keywords).many (by simp))).append ((toldAll_blockSites true body).many (by simp))
    next async name args body decorators returns comment =>
      exact toldAll_entry ((((toldAll_allSites decorators).many (by simp)).append
        ((toldAll_sites args).child (by simp))).append ((toldAll_blockSites true body).many (by simp)))
    next args body =>
      exact toldAll_entry (((toldAll_sites args).child (by simp)).append ((toldAll_sites body).child (by simp)))
    next =>
      refine toldAll_cons (fun e event htells ↦ ?_) (toldAll_chainSites i p _)
      cases htells with
      | @arm _ _ armSpan _ k _ group hk =>
        have hsome : spansOf (chainArms plan marks (.mk i .ifStmt p fs)) ≠ [] := by
          intro hnil
          simp [hnil] at hk
        obtain ⟨m, hm, j, k', rfl, hid, hspan⟩ := exists_link (spansOf_ne_nil hsome) hk
        exact .took hm hid rfl hspan
    next test body orelse =>
      refine toldAll_fork (fun k armSpan hk ↦ ?_) ((((toldAll_sites test).child (by simp)).append
        ((toldAll_sites body).child (by simp))).append ((toldAll_sites orelse).child (by simp)))
      match k with
      | 0 | 1 => exact hk
      | k + 2 => cases hk
    next op values =>
      refine toldAll_located (fun spans hspans k armSpan hk ↦ ?_) ((toldAll_allSites values).many (by simp))
      rw [getElem?_mapM hspans] at hk
      obtain ⟨v, hv, hspan⟩ := Option.bind_eq_some_iff.1 hk
      have hrange : armRange? (.mk i .boolOp p [op, .many values]) k = values[k]?.map spanOf := rfl
      rw [hrange, hv, Option.map_some, spanOf, hspan]
      rfl
    next subject cases =>
      refine toldAll_located (fun spans hspans k armSpan hk ↦ getElem?_matchArms hspans hk)
        ((ToldAll.append ?_ ((toldAll_sites subject).child (by simp))).append
          ((toldAll_caseSites cases).many (by simp)))
      split
      · exact toldAll_quiet _ toldAll_nil
      · exact toldAll_nil
    next test body orelse =>
      refine toldAll_located (fun spans hspans k armSpan hk ↦ ?_) ((((toldAll_sites test).child (by simp)).append
        ((toldAll_blockSites false body).many (by simp))).append ((toldAll_blockSites false orelse).many (by simp)))
      rwa [getElem?_loopArms hspans] at hk
    next async target iter body orelse comment =>
      refine toldAll_located (fun spans hspans k armSpan hk ↦ ?_) (((((toldAll_sites target).child (by simp)).append
        ((toldAll_sites iter).child (by simp))).append ((toldAll_blockSites false body).many (by simp))).append
          ((toldAll_blockSites false orelse).many (by simp)))
      rwa [getElem?_loopArms hspans] at hk
    next star body handlers orelse finalbody =>
      exact toldAll_fork (fun k armSpan hk ↦ hk) (((((toldAll_blockSites false body).many (by simp)).append
        ((toldAll_handlerSites handlers).many (by simp))).append
          ((toldAll_blockSites false orelse).many (by simp))).append
            ((toldAll_blockSites false finalbody).many (by simp)))
    next => exact (toldAll_fieldsSites _ _).mono (List.subset_cons_self _ _)
termination_by n => sizeOf n
decreasing_by
  all_goals
    subst_vars
    simp only [Node.mk.sizeOf_spec, Field.child.sizeOf_spec, Field.many.sizeOf_spec, List.cons.sizeOf_spec]
    omega

theorem toldAll_chainSites (i : NodeId) (p : Place) (fs : List Field) :
    ToldAll (Node.mk i .ifStmt p fs).nodes (chainSites plan marks i fs) := by
  cases hlink : isLink (.mk i .ifStmt p fs) with
  | false =>
    rw [(chain_of_not_isLink hlink plan marks).2]
    exact toldAll_nil
  | true =>
    unfold isLink at hlink
    split at hlink
    next test body orelse heq =>
      cases heq
      have hfront : ToldAll (Node.mk i .ifStmt p [.child test, .many body, .many orelse]).nodes
          (sites plan marks test ++ blockSites plan marks false body) :=
        ((toldAll_sites test).child (by simp)).append ((toldAll_blockSites false body).many (by simp))
      cases hlast : hasNextLink plan marks orelse with
      | false =>
        rw [chainSites_last hlast]
        exact hfront.append ((toldAll_blockSites false orelse).many (by simp))
      | true =>
        obtain ⟨n, rfl, hnext⟩ := hasNextLink_eq_true hlast
        obtain ⟨j, q, test', body', orelse', rfl⟩ := continues_link hnext
        rw [chainSites_next hnext]
        have hrest : (Node.mk j .ifStmt q [.child test', .many body', .many orelse']).nodes ⊆
            nodesNodes [.mk j .ifStmt q [.child test', .many body', .many orelse']] := by simp [nodesNodes]
        exact hfront.append (toldAll_quiet _ (toldAll_quiet _
          (((toldAll_chainSites j q _).mono hrest).many (by simp))))
    next => cases hlink
termination_by sizeOf fs
decreasing_by
  all_goals
    subst_vars
    simp only [Node.mk.sizeOf_spec, Field.child.sizeOf_spec, Field.many.sizeOf_spec, List.cons.sizeOf_spec]
    omega

theorem toldAll_blockSites (doc : Bool) : ∀ ns : List Node, ToldAll (nodesNodes ns) (blockSites plan marks doc ns)
  | [] => toldAll_nil
  | s :: rest => by
    rw [blockSites, nodesNodes]
    refine ToldAll.append (ToldAll.mono ?_ (List.subset_append_left _ _))
      ((toldAll_blockSites false rest).mono (List.subset_append_right _ _))
    split
    · exact toldAll_hush _
    · exact (toldAll_start s).append (toldAll_sites s)
termination_by ns => sizeOf ns

theorem toldAll_allSites : ∀ ns : List Node, ToldAll (nodesNodes ns) (allSites plan marks ns)
  | [] => toldAll_nil
  | n :: ns => by
    rw [allSites, nodesNodes]
    exact ((toldAll_sites n).mono (List.subset_append_left _ _)).append
      ((toldAll_allSites ns).mono (List.subset_append_right _ _))
termination_by ns => sizeOf ns

theorem toldAll_caseSites (cs : List Node) : ToldAll (nodesNodes cs) (caseSites plan marks cs) := by
  unfold caseSites
  split
  next i c p pattern guard body rest =>
    rw [nodesNodes]
    refine ToldAll.append (ToldAll.mono ?_ (List.subset_append_left _ _))
      ((toldAll_caseSites rest).mono (List.subset_append_right _ _))
    exact ((toldAll_hush _).append ((toldAll_fieldSites guard).mono (nodes_of_field (by simp)))).append
      ((toldAll_blockSites false body).many (by simp))
  next => exact toldAll_nil
termination_by sizeOf cs

theorem toldAll_handlerSites (hs : List Node) : ToldAll (nodesNodes hs) (handlerSites plan marks hs) := by
  unfold handlerSites
  split
  next i c p type name body rest =>
    rw [nodesNodes]
    refine ToldAll.append (ToldAll.mono ?_ (List.subset_append_left _ _))
      ((toldAll_handlerSites rest).mono (List.subset_append_right _ _))
    exact ((toldAll_fieldSites type).mono (nodes_of_field (by simp))).append
      ((toldAll_blockSites false body).many (by simp))
  next => exact toldAll_nil
termination_by sizeOf hs

theorem toldAll_fieldsSites : ∀ (names : List String) (fs : List Field),
    ToldAll (fieldsNodes fs) (fieldsSites plan marks names fs)
  | [], _ => by
    rw [fieldsSites]
    · exact toldAll_nil
    · simp
  | _ :: _, [] => toldAll_nil
  | name :: names, f :: fs => by
    rw [fieldsSites, fieldsNodes_cons]
    refine ToldAll.append (ToldAll.mono ?_ (List.subset_append_left _ _))
      ((toldAll_fieldsSites names fs).mono (List.subset_append_right _ _))
    split
    · exact toldAll_nil
    · exact toldAll_fieldSites f
termination_by _ fs => sizeOf fs

theorem toldAll_fieldSites : ∀ f : Field, ToldAll (f.children.flatMap Node.nodes) (fieldSites plan marks f)
  | .child n => by
    rw [fieldSites]
    simpa [Field.children] using toldAll_sites n
  | .many ns => by
    rw [fieldSites, Field.children, ← nodesNodes_eq_flatMap]
    split
    · exact toldAll_blockSites false ns
    · exact toldAll_allSites ns
  | .none | .text _ | .number _ | .constant _ | .names _ => toldAll_nil
termination_by f => sizeOf f
end

end Trees

/-! ## Labels -/

/-- Each key that is given to an event is the key of an entry that was accepted for it. -/
def Backed (e : Enrolment) : Prop :=
  ∀ event key, .label event (some key) ∈ e.tags → ∃ entry, (event, entry) ∈ e.accepted ∧ entry.key = key

section Labels

variable {plan : Plan} {m : Metadata Kind}

theorem Backed.andThen {e f : Enrolment} (he : Backed e) (hf : Backed f) : Backed (e.andThen f) := by
  intro event key hlabel
  rcases List.mem_append.1 hlabel with hlabel | hlabel
  · obtain ⟨entry, hentry, hkey⟩ := he event key hlabel
    exact ⟨entry, List.mem_append_left _ hentry, hkey⟩
  · obtain ⟨entry, hentry, hkey⟩ := hf event key hlabel
    exact ⟨entry, List.mem_append_right _ hentry, hkey⟩

theorem backed_offer (event : Event) (entry : Entry Kind) : Backed (offer m event entry) := by
  intro e key hlabel
  unfold offer at hlabel ⊢
  split at hlabel
  next hadded =>
    rw [if_pos hadded]
    cases List.mem_singleton.1 hlabel
    exact ⟨entry, List.mem_singleton.2 rfl, rfl⟩
  next => cases List.mem_singleton.1 hlabel

theorem backed_offerArms (group : Int) (a : Nat) (arms : List (Event × Span)) : Backed (offerArms group a arms m) := by
  induction arms generalizing a m with
  | nil => exact fun _ _ hlabel ↦ by cases hlabel
  | cons arm arms ih => exact (backed_offer arm.1 _).andThen (ih (a + 1))

theorem label_of_settle {construct : Construct} {tags : List Tag} {event : Event} {key : Key}
    (h : .label event (some key) ∈ settle construct tags) : .label event (some key) ∈ tags := by
  unfold settle at h
  split at h
  · obtain ⟨tag, -, htag⟩ := List.mem_map.1 h
    cases tag <;> cases htag
  · exact h

/-- Every entry is backed by what its site tells. -/
theorem backed_enrol (site : Site) : Backed (enrol plan m site) := by
  cases site with
  | unit event kind span name =>
    rw [enrol]
    split
    · exact backed_offer event _
    · exact fun e key hlabel ↦ by cases List.mem_singleton.1 hlabel
  | fork construct span arms =>
    rw [enrol]
    split
    · split
      · exact fun _ _ hlabel ↦ by cases hlabel
      · exact fun event key hlabel ↦ backed_offerArms _ 0 arms event key (label_of_settle hlabel)
    · intro event key hlabel
      obtain ⟨arm, -, harm⟩ := List.mem_map.1 hlabel
      cases harm
  | quiet event => exact fun e key hlabel ↦ by cases List.mem_singleton.1 hlabel
  | silent i => exact fun e key hlabel ↦ by cases List.mem_singleton.1 hlabel

theorem backed_enrolAll (sites : List Site) : Backed (enrolAll plan m sites) := by
  induction sites generalizing m with
  | nil => exact fun _ _ hlabel ↦ by cases hlabel
  | cons site rest ih => exact (backed_enrol site).andThen ih

/-- A label with a key belongs to an entry of the record, which is about the event of the label. -/
theorem exists_entry_of_label {marks : Marks} {tree : Node} {event : Event} {key : Key}
    (h : .label event (some key) ∈ (roster plan marks tree).tags) :
    ∃ e ∈ (roster plan marks tree).record.entries, e.key = key ∧ e.key = keyOf e.kind e.span ∧
      Told tree.nodes e event := by
  obtain ⟨e, haccepted, hkey⟩ := backed_enrolAll _ event key h
  obtain ⟨site, hsite, htells, -⟩ := accepted_enrolAll haccepted
  refine ⟨e, ?_, hkey, htells.key, toldAll_sites tree site hsite e event htells⟩
  rw [(enrols_roster plan marks tree).entries]
  exact List.mem_append_right _ (List.mem_map.2 ⟨(event, e), haccepted, rfl⟩)

/-- An entry that is not alone labels an event. -/
theorem exists_label_of_entry {marks : Marks} {tree : Node} {e : Entry Kind}
    (he : e ∈ (roster plan marks tree).record.entries) (hlone : ¬(roster plan marks tree).record.Lone e) :
    ∃ event, .label event (some e.key) ∈ (roster plan marks tree).tags := by
  have henrols := enrols_roster plan marks tree
  rw [henrols.entries] at he
  obtain ⟨a, ha, rfl⟩ : ∃ a ∈ (roster plan marks tree).accepted, a.2 = e := by simpa using he
  obtain ⟨tag, htag, hkey⟩ := List.mem_filterMap.1 ((henrols.called a ha).2 hlone)
  cases tag with
  | label event key =>
    cases hkey
    exact ⟨event, htag⟩
  | silent i => cases hkey

end Labels

end Coverage.Pass
