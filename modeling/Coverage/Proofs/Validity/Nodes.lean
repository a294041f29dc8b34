import Coverage.Proofs.Pass.Reach
import Coverage.Proofs.Pass.Walk

/-!
# The nodes of a woven tree

A woven tree has the nodes of the tree it is woven from, in the same order, each of them rewoven on its own, and the
nodes of probes between them. So a property that reweaving keeps and that the nodes of probes have is kept in whole
trees, and what is read off the nodes one after the other stays the same if the nodes of probes add nothing to it. The
nodes that are rewoven are in every set that the walk cannot leave, and each probe is for an event of one of them and
has its place from the anchor of this event.
-/

namespace Coverage.Pass

open Syntax Program

/-- The second list is the first with new nodes put in, and with other nodes in place of its own. -/
inductive Interleaved (R : Node → Node → Prop) (New : Node → Prop) : List Node → List Node → Prop
  | nil : Interleaved R New [] []
  | keep {n n' ns ns'} (h : R n n') (hs : Interleaved R New ns ns') : Interleaved R New (n :: ns) (n' :: ns')
  | insert {n' ns ns'} (h : New n') (hs : Interleaved R New ns ns') : Interleaved R New ns (n' :: ns')

namespace Interleaved

variable {R : Node → Node → Prop} {New : Node → Prop} {ns ns' ms ms' : List Node}

theorem append (h : Interleaved R New ns ns') (h' : Interleaved R New ms ms') :
    Interleaved R New (ns ++ ms) (ns' ++ ms') := by
  induction h with
  | nil => exact h'
  | keep h _ ih => exact .keep h ih
  | insert h _ ih => exact .insert h ih

theorem same (refl : ∀ n ∈ ns, R n n) : Interleaved R New ns ns := by
  induction ns with
  | nil => exact .nil
  | cons n ns ih =>
    obtain ⟨hn, hns⟩ := List.forall_mem_cons.1 refl
    exact .keep hn (ih hns)

theorem inserted {new : List Node} (hnew : ∀ n ∈ new, New n) (h : Interleaved R New ns ns') :
    Interleaved R New ns (new ++ ns') := by
  induction new with
  | nil => exact h
  | cons n new ih =>
    obtain ⟨hn, hnew⟩ := List.forall_mem_cons.1 hnew
    exact .insert hn (ih hnew)

/-- New nodes can stand anywhere. -/
theorem between {new : List Node} (hnew : ∀ n ∈ new, New n) (h : Interleaved R New ns (ns' ++ ms')) :
    Interleaved R New ns (ns' ++ (new ++ ms')) := by
  induction ns' generalizing ns with
  | nil =>
    rw [List.nil_append] at h ⊢
    exact h.inserted hnew
  | cons n ns' ih =>
    cases h with
    | keep h hs => exact .keep h (ih hs)
    | insert h hs => exact .insert h (ih hs)

theorem imp {S : Node → Node → Prop} {New' : Node → Prop} (hkeep : ∀ {n n'}, R n n' → S n n')
    (hnew : ∀ {n}, New n → New' n) (h : Interleaved R New ns ns') : Interleaved S New' ns ns' := by
  induction h with
  | nil => exact .nil
  | keep h _ ih => exact .keep (hkeep h) ih
  | insert h _ ih => exact .insert (hnew h) ih

theorem forall_mem {P : Node → Prop} (hkeep : ∀ {n n'}, R n n' → P n → P n') (hnew : ∀ {n}, New n → P n)
    (h : Interleaved R New ns ns') (hall : ∀ n ∈ ns, P n) : ∀ n ∈ ns', P n := by
  induction h with
  | nil => exact hall
  | keep h _ ih =>
    obtain ⟨hn, hns⟩ := List.forall_mem_cons.1 hall
    exact List.forall_mem_cons.2 ⟨hkeep h hn, ih hns⟩
  | insert h _ ih => exact List.forall_mem_cons.2 ⟨hnew h, ih hall⟩

theorem filterMap_eq {β : Type} {f : Node → Option β} (hkeep : ∀ {n n'}, R n n' → f n' = f n)
    (hnew : ∀ {n}, New n → f n = none) (h : Interleaved R New ns ns') : ns'.filterMap f = ns.filterMap f := by
  induction h with
  | nil => rfl
  | keep h _ ih => rw [List.filterMap_cons, List.filterMap_cons, hkeep h, ih]
  | insert h _ ih => rw [List.filterMap_cons, hnew h, ih]

/-- The new list can be changed once more, node by node. -/
theorem comp {S : Node → Node → Prop} {ms : List Node} (h : Interleaved R New ns ns')
    (hs : List.Forall₂ S ns' ms) :
    Interleaved (fun n m ↦ ∃ n', R n n' ∧ S n' m) (fun m ↦ ∃ n', New n' ∧ S n' m) ns ms := by
  induction h generalizing ms with
  | nil =>
    cases hs
    exact .nil
  | keep h _ ih =>
    cases hs with
    | cons hn hs => exact .keep ⟨_, h, hn⟩ (ih hs)
  | insert h _ ih =>
    cases hs with
    | cons hn hs => exact .insert ⟨_, h, hn⟩ (ih hs)

end Interleaved

/-! ## Nodes of probes -/

section Probes

variable (plan : Plan)

/-- The nodes that a pass adds. A guard has a body, which is not added. -/
inductive Injected : Node → Prop
  | load {i} : Injected (Probe.load i)
  | string {i place s} : Injected (Probe.stringConstant i place s)
  | receiver {i place f} : Injected (.mk i (.plain .name) place [.text plan.globalName, f])
  | method {i place f name ctx} : Injected (.mk i (.plain .attr) place [f, .text name, ctx])
  | call {method keys place i} : Injected (Probe.call plan method keys place i)
  | counter {key place i} : Injected (Probe.counter plan key place i)
  | or {i} : Injected (.mk i (.plain .or) {} [])
  | wrapper {key e i} : Injected (Probe.wrapper plan key e i)
  | item {i f} : Injected (.mk i (.plain .withItem) {} [f, .none])
  | guard {ok error place s b i} : Injected (Probe.guard plan ok error place (s :: b) i)
  | wildcard {i place} : Injected (.mk i (.plain .matchAs) place [.none, .none])
  | fallback {key place i} : Injected (Probe.fallback plan key place i)

variable {plan}

theorem injected_arguments (place : Place) (i : NodeId) (ss : List String) :
    ∀ n ∈ nodesNodes (Probe.arguments place i ss), Injected plan n := by
  induction ss generalizing i with
  | nil => simp [Probe.arguments, nodesNodes]
  | cons s ss ih =>
    rw [Probe.arguments, nodesNodes, List.forall_mem_append]
    refine ⟨?_, ih (i + 1)⟩
    simpa [Probe.stringConstant, Node.nodes, fieldsNodes] using Injected.string

theorem injected_call (method : String) (keys : List Key) (place : Place) (i : NodeId) :
    ∀ n ∈ (Probe.call plan method keys place i).nodes, Injected plan n := by
  have hload (j : NodeId) : ∀ n ∈ (Probe.load j).nodes, Injected plan n := by
    simpa [Probe.load, Node.nodes, fieldsNodes] using Injected.load
  simp only [Probe.call, Node.nodes, fieldsNodes, nodesNodes, List.append_nil, List.cons_append,
    List.forall_mem_cons, List.forall_mem_append]
  exact ⟨.call, .method, .receiver, ⟨hload _, hload _⟩, injected_arguments place (i + 5) (plan.filename :: keys)⟩

theorem injected_counter (key : Key) (place : Place) (i : NodeId) :
    ∀ n ∈ (Probe.counter plan key place i).nodes, Injected plan n := by
  simp only [Probe.counter, Node.nodes, fieldsNodes, List.append_nil, List.forall_mem_cons]
  exact ⟨.counter, injected_call "hit" [key] place (i + 1)⟩

theorem injected_fallback (key : Key) (place : Place) (i : NodeId) :
    ∀ n ∈ (Probe.fallback plan key place i).nodes, Injected plan n := by
  simp only [Probe.fallback, Node.nodes, fieldsNodes, nodesNodes, List.append_nil, List.cons_append,
    List.nil_append, List.forall_mem_cons]
  exact ⟨.fallback, .wildcard, injected_counter key place (i + 2)⟩

def wrapperNodes (plan : Plan) (key : Key) (e : Node) (i : NodeId) : List Node :=
  Probe.wrapper plan key e i :: .mk (i + 1) (.plain .or) {} [] :: (Probe.call plan "hit" [key] e.place (i + 2)).nodes

theorem nodes_wrapper (key : Key) (e : Node) (i : NodeId) :
    (Probe.wrapper plan key e i).nodes = wrapperNodes plan key e i ++ e.nodes := by
  simp [wrapperNodes, Probe.wrapper, Node.nodes, fieldsNodes, nodesNodes]

def guardNodes (plan : Plan) (ok error : Key) (place : Place) (b : List Node) (i : NodeId) : List Node :=
  Probe.guard plan ok error place b i ::
    .mk (i + 1) (.plain .withItem) {} [.child (Probe.call plan "guard" [ok, error] place (i + 2)), .none] ::
    (Probe.call plan "guard" [ok, error] place (i + 2)).nodes

theorem nodes_guard (ok error : Key) (place : Place) (b : List Node) (i : NodeId) :
    (Probe.guard plan ok error place b i).nodes = guardNodes plan ok error place b i ++ nodesNodes b := by
  simp [guardNodes, Probe.guard, Node.nodes, fieldsNodes, nodesNodes]

/-- The nodes of the probe for a key that has its place from a node. -/
inductive Stamped (plan : Plan) (key : Key) (a : Node) : Node → Prop
  | counter {j m} (hm : m ∈ (Probe.counter plan key a.place j).nodes) : Stamped plan key a m
  | wrapper {e j m} (id : e.id? = a.id?) (place : e.place = a.place) (hm : m ∈ wrapperNodes plan key e j) :
    Stamped plan key a m
  | guard {error s b j m} (hm : m ∈ guardNodes plan key error a.place (s :: b) j) : Stamped plan key a m
  | fallback {j m} (hm : m ∈ (Probe.fallback plan key a.place j).nodes) : Stamped plan key a m

/-- Code with a counter is injected. -/
theorem Stamped.injected {key : Key} {a m : Node} (h : Stamped plan key a m) : Injected plan m := by
  cases h with
  | counter hm => exact injected_counter _ _ _ m hm
  | wrapper _ _ hm =>
    simp only [wrapperNodes, List.mem_cons] at hm
    rcases hm with rfl | rfl | hm
    · exact .wrapper
    · exact .or
    · exact injected_call _ _ _ _ m hm
  | guard hm =>
    simp only [guardNodes, List.mem_cons] at hm
    rcases hm with rfl | rfl | hm
    · exact .guard
    · exact .item
    · exact injected_call _ _ _ _ m hm
  | fallback hm => exact injected_fallback _ _ _ m hm

/-- If there is a key, the nodes of a probe for it with its place from `a` can be put in. -/
def Allows (plan : Plan) (New : Node → Prop) (key : Option Key) (a : Node) : Prop :=
  ∀ k, key = some k → ∀ m, Stamped plan k a m → New m

variable {first : NodeId} {final : Marks} {R : Node → Node → Prop} {New : Node → Prop} {a : Node} {ns : List Node}

theorem Counted.interleaved {key : Option Key} {place : Place} {b b' : List Node}
    (h : Counted plan first final key place b b') (hnew : Allows plan New key a) (hplace : place = a.place)
    (hb : Interleaved R New ns (nodesNodes b)) : Interleaved R New ns (nodesNodes b') := by
  subst hplace
  cases h with
  | bare => exact hb
  | front =>
    rw [nodesNodes]
    exact hb.inserted fun m hm ↦ hnew _ rfl m (.counter hm)

/-- The place of the counter of a function. -/
def entryPlace (doc : Bool) (b : List Node) : Place := if doc then anchor b.tail (anchor b {}) else anchor b {}

theorem Entered.interleaved {key : Option Key} {doc : Bool} {b b' : List Node}
    (h : Entered plan first final key doc b b') (hnew : Allows plan New key a) (hplace : entryPlace doc b = a.place)
    (hb : Interleaved R New ns (nodesNodes b)) : Interleaved R New ns (nodesNodes b') := by
  have hcounter : ∀ {k j m}, key = some k → m ∈ (Probe.counter plan k (entryPlace doc b) j).nodes → New m :=
    fun hkey hm ↦ hnew _ hkey _ (.counter (hplace ▸ hm))
  cases h with
  | bare => exact hb
  | front =>
    rw [nodesNodes]
    exact hb.inserted fun m hm ↦ hcounter rfl hm
  | behind | last =>
    rw [nodesNodes] at hb
    rw [nodesNodes, nodesNodes]
    exact hb.between fun m hm ↦ hcounter rfl hm

theorem Wrapped.interleaved {key : Option Key} {e e' : Node} (h : Wrapped plan first final key e e')
    (hnew : Allows plan New key a) (hid : e.id? = a.id?) (hplace : e.place = a.place)
    (he : Interleaved R New ns e.nodes) : Interleaved R New ns e'.nodes := by
  cases h with
  | bare => exact he
  | wrapped =>
    rw [nodes_wrapper]
    exact he.inserted fun m hm ↦ hnew _ rfl m (.wrapper hid hplace hm)

theorem Guarded.interleaved {k₀ k₁ : Option Key} {b b' : List Node} (h : Guarded plan first final k₀ k₁ b b')
    (hnew : Allows plan New k₀ a) (hplace : anchor b {} = a.place) (hb : Interleaved R New ns (nodesNodes b)) :
    Interleaved R New ns (nodesNodes b') := by
  cases h with
  | bare => exact hb
  | @guarded ok error s b j =>
    rw [nodesNodes, nodesNodes, nodes_guard, List.append_nil]
    have hplace : s.place = a.place := hplace
    exact hb.inserted fun m hm ↦ hnew _ rfl m (.guard (hplace ▸ hm))

theorem Completed.interleaved {key : Option Key} {place : Place} {cs cs' : List Node}
    (h : Completed plan first final key place cs cs') (hnew : Allows plan New key a) (hplace : place = a.place)
    (hcs : Interleaved R New ns (nodesNodes cs)) : Interleaved R New ns (nodesNodes cs') := by
  subst hplace
  cases h with
  | bare => exact hcs
  | fallback =>
    rw [nodesNodes_eq_flatMap] at hcs ⊢
    rw [List.flatMap_append, List.flatMap_cons, List.flatMap_nil]
    exact Interleaved.between (fun m hm ↦ hnew _ rfl m (.fallback hm)) (by rwa [List.append_nil])

end Probes

/-! ## Woven nodes -/

section Woven

variable (plan : Plan) (marks : Marks) (first : NodeId) (final : Marks) (E : Node → Prop)

/-- What becomes of one node of a tree. In one that stays as it is, no node is marked; one that is walked into is in the
set. -/
inductive Rewoven : Node → Node → Prop
  | same {n} (kept : marks.AgreesOn n.ids final) : Rewoven n n
  | woven {n t n'} (hn : E n) (h : Woven plan marks first final n t n') : Rewoven n n'
  | case {i p pattern guard body key t₁ t₂ g b b'} (kept : marks.AgreesOn pattern.ids final)
    (hg : WovenField plan marks first final guard t₁ g) (hb : WovenBlock plan marks first final false body t₂ b)
    (arm : Counted plan first final key (anchor b {}) b b') :
    Rewoven (.mk i .matchCase p [.child pattern, guard, .many body]) (.mk i .matchCase p [.child pattern, g, .many b'])
  | handler {i c p type name body t₁ t₂ t b} (kept : marks.AgreesOn name.ids final)
    (ht : WovenField plan marks first final type t₁ t) (hb : WovenBlock plan marks first final false body t₂ b) :
    Rewoven (.mk i c p [type, name, .many body]) (.mk i c p [t, name, .many b])

end Woven

/-- The setting of a walk: a set of nodes that it cannot leave, the labels, and the nodes that can be put in for them.
-/
structure Setting (plan : Plan) (marks : Marks) (E : Node → Prop) (T : List Tag) (New : Node → Prop) : Prop
    extends Encloses plan marks E where
  new : ∀ {n event key m}, E n → n.id? = some event.node → .label event (some key) ∈ T →
    Stamped plan key (anchorOf n event) m → New m

section Interleaving

variable {plan : Plan} {marks : Marks} {first : NodeId} {final : Marks} {E : Node → Prop} {T : List Tag}
  {New : Node → Prop}

theorem Setting.allows (F : Setting plan marks E T New) {n : Node} {event : Event} {key : Option Key} (hn : E n)
    (hid : n.id? = some event.node) (hlabel : .label event key ∈ T) : Allows plan New key (anchorOf n event) := by
  rintro k rfl m hm
  exact F.new hn hid hlabel hm

theorem setting_injected (T : List Tag) : Setting plan marks (fun _ ↦ True) T (Injected plan) where
  field _ _ _ := stays_of_subset (fun _ _ _ ↦ trivial) _
  case _ _ := ⟨stays_of_subset (fun _ _ _ ↦ trivial) _, stays_of_subset (fun _ _ _ ↦ trivial) _⟩
  handler _ _ := ⟨stays_of_subset (fun _ _ _ ↦ trivial) _, stays_of_subset (fun _ _ _ ↦ trivial) _⟩
  new _ _ _ hm := hm.injected

/-! ### Places -/

theorem Woven.id? {n n' : Node} {t : List Tag} (h : Woven plan marks first final n t n') : n'.id? = n.id? := by
  cases h with
  | ifStmt _ chain => cases chain <;> rfl
  | _ => rfl

theorem Woven.place {n n' : Node} {t : List Tag} (h : Woven plan marks first final n t n') : n'.place = n.place := by
  cases h with
  | ifStmt _ chain => cases chain <;> rfl
  | _ => rfl

/-- A block begins where it began before, with a statement or its counter. -/
theorem WovenBlock.anchor_eq {doc : Bool} {body b : List Node} {t : List Tag} {place : Place} {other : Node}
    (h : WovenBlock plan marks first final doc body t b) (hother : place = other.place) :
    anchor b place = (firstOr other body).place := by
  cases h with
  | nil => exact hother
  | skip | gap => rfl
  | stmt _ _ hs _ counted =>
    cases counted with
    | bare => exact hs.place
    | front => rfl

theorem WovenBlock.entryPlace_eq {body b : List Node} {t : List Tag}
    (h : WovenBlock plan marks first final true body t b) :
    entryPlace (startsWithDocstring body) b = (bodyAnchor body).place := by
  unfold entryPlace bodyAnchor
  split
  next hdoc =>
    obtain ⟨d, rest, t', rest', -, rfl, rfl, -, hrest⟩ := h.docstring hdoc
    exact hrest.anchor_eq rfl
  next => exact h.anchor_eq rfl

theorem label_mem_armTags (i : NodeId) {keys : List (Option Key)} {a : Nat} {key : Option Key} (b : Nat)
    (h : keys[a]? = some key) : .label (.took i (b + a)) key ∈ armTags i b keys := by
  induction keys generalizing a b with
  | nil => cases h
  | cons head keys ih =>
    cases a with
    | zero =>
      cases h
      exact List.mem_cons_self
    | succ a =>
      have htail := ih (b + 1) h
      rw [Nat.add_right_comm] at htail
      exact List.mem_cons_of_mem _ htail

theorem WovenCases.length {keys : List (Option Key)} {cs cs' : List Node} {t : List Tag}
    (h : WovenCases plan marks first final keys cs t cs') : cs.length = keys.length ∧ cs'.length = keys.length := by
  induction keys generalizing cs cs' t with
  | nil =>
    cases h
    exact ⟨rfl, rfl⟩
  | cons head keys ih =>
    cases h with
    | cons kept hg hb arm hrest => exact ⟨congrArg (· + 1) (ih hrest).1, congrArg (· + 1) (ih hrest).2⟩

/-! ### Trees -/

/-- The nodes of the second list are those of the first, rewoven, and new ones. -/
abbrev Spread (plan : Plan) (marks : Marks) (first : NodeId) (final : Marks) (E : Node → Prop) (New : Node → Prop) :
    List Node → List Node → Prop :=
  Interleaved (Rewoven plan marks first final E) New

/-- The nodes below nodes that stay as they are. -/
theorem spread_kept {ns : List Node} (kept : marks.AgreesOn (ns.flatMap Node.ids) final) :
    Spread plan marks first final E New (ns.flatMap Node.nodes) (ns.flatMap Node.nodes) := by
  refine Interleaved.same fun m hm ↦ .same fun j hj ↦ kept j ?_
  obtain ⟨n, hn, hm⟩ := List.mem_flatMap.1 hm
  exact List.mem_flatMap.2 ⟨n, hn, (ids_sublist hm).subset hj⟩

theorem spread_keptFields {fs : List Field} (kept : marks.AgreesOn (fieldsIds fs) final) :
    Spread plan marks first final E New (fieldsNodes fs) (fieldsNodes fs) := by
  rw [fieldsIds_eq_flatMap] at kept
  rw [fieldsNodes_eq_flatMap]
  exact spread_kept kept

theorem spread_keptNodes {ns : List Node} (kept : marks.AgreesOn (nodesIds ns) final) :
    Spread plan marks first final E New (nodesNodes ns) (nodesNodes ns) := by
  rw [nodesIds_eq_flatMap] at kept
  rw [nodesNodes_eq_flatMap]
  exact spread_kept kept

theorem spread_keptNode {n : Node} (kept : marks.AgreesOn n.ids final) :
    Spread plan marks first final E New n.nodes n.nodes := by
  have h : Spread plan marks first final E New ([n].flatMap Node.nodes) ([n].flatMap Node.nodes) :=
    spread_kept (by simpa using kept)
  simpa using h

theorem children_of_isAtom {f : Field} (h : isAtom f = true) : f.children = [] := by
  cases f with
  | child | many => cases h
  | _ => rfl

theorem spread_fieldsNodes_cons {f f' : Field} {fs fs' : List Field}
    (hf : Spread plan marks first final E New (f.children.flatMap Node.nodes) (f'.children.flatMap Node.nodes))
    (hfs : Spread plan marks first final E New (fieldsNodes fs) (fieldsNodes fs')) :
    Spread plan marks first final E New (fieldsNodes (f :: fs)) (fieldsNodes (f' :: fs')) := by
  rw [fieldsNodes_cons, fieldsNodes_cons]
  exact hf.append hfs

theorem spread_same_cons {f : Field} {fs fs' : List Field} (kept : marks.AgreesOn f.ids final)
    (hfs : Spread plan marks first final E New (fieldsNodes fs) (fieldsNodes fs')) :
    Spread plan marks first final E New (fieldsNodes (f :: fs)) (fieldsNodes (f :: fs')) := by
  refine spread_fieldsNodes_cons (spread_kept ?_) hfs
  rwa [Field.ids, fieldsIds_eq_flatMap, List.flatMap_singleton] at kept

theorem spread_child_cons {n n' : Node} {fs fs' : List Field}
    (hn : Spread plan marks first final E New n.nodes n'.nodes)
    (hfs : Spread plan marks first final E New (fieldsNodes fs) (fieldsNodes fs')) :
    Spread plan marks first final E New (fieldsNodes (.child n :: fs)) (fieldsNodes (.child n' :: fs')) := by
  rw [fieldsNodes, fieldsNodes]
  exact hn.append hfs

theorem spread_many_cons {ns ns' : List Node} {fs fs' : List Field}
    (hns : Spread plan marks first final E New (nodesNodes ns) (nodesNodes ns'))
    (hfs : Spread plan marks first final E New (fieldsNodes fs) (fieldsNodes fs')) :
    Spread plan marks first final E New (fieldsNodes (.many ns :: fs)) (fieldsNodes (.many ns' :: fs')) := by
  rw [fieldsNodes, fieldsNodes]
  exact hns.append hfs

theorem spread_nodes_cons {n n' : Node} {ns ns' : List Node} (hn : Spread plan marks first final E New n.nodes n'.nodes)
    (hns : Spread plan marks first final E New (nodesNodes ns) (nodesNodes ns')) :
    Spread plan marks first final E New (nodesNodes (n :: ns)) (nodesNodes (n' :: ns')) := by
  rw [nodesNodes, nodesNodes]
  exact hn.append hns

theorem spread_mk {i : NodeId} {c : NodeClass} {p : Place} {fs fs' : List Field}
    (h : Rewoven plan marks first final E (.mk i c p fs) (.mk i c p fs'))
    (hfs : Spread plan marks first final E New (fieldsNodes fs) (fieldsNodes fs')) :
    Spread plan marks first final E New (Node.mk i c p fs).nodes (Node.mk i c p fs').nodes := by
  rw [Node.nodes, Node.nodes]
  exact .keep h hfs

mutual
/-- The nodes of a woven tree are those of the tree, with injected ones between them. -/
theorem Woven.spread {n n' : Node} {t : List Tag} (F : Setting plan marks E T New) :
    Woven plan marks first final n t n' → (n ≠ .gap → marks.holds n = false → E n) → t ⊆ T →
      Spread plan marks first final E New n.nodes n'.nodes
  | .gap, _, _ => .nil
  | .marked _ kept, _, _ => spread_keptNode kept
  | .module dealt hb kept, hn, hT =>
    have hself := hn nofun dealt.free
    spread_mk (.woven hself (.module dealt hb kept))
      (spread_many_cons (hb.spread F (F.field 0 hself rfl).block hT) (spread_same_cons kept .nil))
  | .classDef free hds hbs hks hb kept, hn, hT => by
    have hself := hn nofun free
    simp only [List.append_subset] at hT
    obtain ⟨⟨⟨ht₁, ht₂⟩, ht₃⟩, ht₄⟩ := hT
    exact spread_mk (.woven hself (.classDef free hds hbs hks hb kept)) (spread_same_cons kept
      (spread_many_cons (hbs.spread F ((F.field 1 hself rfl).all (.inl rfl)) ht₂)
        (spread_many_cons (hks.spread F ((F.field 2 hself rfl).all (.inl rfl)) ht₃)
          (spread_many_cons (hb.spread F (F.field 3 hself rfl).block ht₄)
            (spread_many_cons (hds.spread F ((F.field 4 hself rfl).all (.inl rfl)) ht₁) .nil)))))
  | .functionDef free hds ha hb entry kept, hn, hT => by
    have hself := hn nofun free
    simp only [List.cons_subset, List.append_subset] at hT
    obtain ⟨hlabel, ⟨ht₁, ht₂⟩, ht₃⟩ := hT
    exact spread_mk (.woven hself (.functionDef free hds ha hb entry kept))
      (spread_child_cons (ha.spread F (F.field 1 hself rfl) ht₂)
        (spread_many_cons (entry.interleaved (F.allows hself rfl hlabel) hb.entryPlace_eq
            (hb.spread F (F.field 2 hself rfl).block ht₃))
          (spread_many_cons (hds.spread F ((F.field 3 hself rfl).all (.inl rfl)) ht₁)
            (spread_same_cons (fun j hj ↦ kept j (List.mem_append_left _ hj))
              (spread_same_cons (fun j hj ↦ kept j (List.mem_append_right _ hj)) .nil)))))
  | .lambda dealt ha hb entry, hn, hT => by
    have hself := hn nofun dealt.free
    simp only [List.cons_subset, List.append_subset] at hT
    obtain ⟨hlabel, ht₁, ht₂⟩ := hT
    exact spread_mk (.woven hself (.lambda dealt ha hb entry))
      (spread_child_cons (ha.spread F (F.field 0 hself rfl) ht₁)
        (spread_child_cons (entry.interleaved (F.allows hself rfl hlabel) hb.id? hb.place
          (hb.spread F (F.field 1 hself rfl) ht₂)) .nil))
  | .ifStmt free chain, hn, hT => by
    obtain ⟨harms, ht⟩ := List.append_subset.1 hT
    exact chain.spread F free (hn nofun free) harms ht
  | .ifExp dealt ht hb ho arm₀ arm₁, hn, hT => by
    have hself := hn nofun dealt.free
    simp only [armTags, List.cons_append, List.nil_append, List.cons_subset, List.append_subset] at hT
    obtain ⟨h₀, h₁, ⟨ht₁, ht₂⟩, ht₃⟩ := hT
    exact spread_mk (.woven hself (.ifExp dealt ht hb ho arm₀ arm₁))
      (spread_child_cons (ht.spread F (F.field 0 hself rfl) ht₁)
        (spread_child_cons (arm₀.interleaved (F.allows hself rfl h₀) hb.id? hb.place
            (hb.spread F (F.field 1 hself rfl) ht₂))
          (spread_child_cons (arm₁.interleaved (F.allows hself rfl h₁) ho.id? ho.place
            (ho.spread F (F.field 2 hself rfl) ht₃)) .nil)))
  | .boolOp dealt hvs kept, hn, hT => by
    have hself := hn nofun dealt.free
    obtain ⟨hlabels, ht⟩ := List.append_subset.1 hT
    refine spread_mk (.woven hself (.boolOp dealt hvs kept)) (spread_same_cons kept (spread_many_cons
      (hvs.spread F ((F.field 1 hself rfl).all (.inl rfl)) (fun a key e hkey he ↦ ?_) ht) .nil))
    have hallows := F.allows hself rfl (hlabels (label_mem_armTags _ 0 hkey))
    rwa [Nat.zero_add, anchorOf, armAnchor, armExpr?, he] at hallows
    all_goals simp
  | .matchStmt free hs hcs rest covered, hn, hT => by
    have hself := hn nofun free
    simp only [List.append_subset] at hT
    obtain ⟨hlabels, ht₁, ht₂⟩ := hT
    have hallows : ∀ a key, (_ ++ [_])[a]? = some key → Allows plan New key (anchorOf _ (.took _ a)) :=
      fun a key hkey ↦ F.allows hself rfl (by simpa using hlabels (label_mem_armTags _ 0 hkey))
    refine spread_mk (.woven hself (.matchStmt free hs hcs rest covered))
      (spread_child_cons (hs.spread F (F.field 0 hself rfl) ht₁) (spread_many_cons
        (rest.interleaved (hallows _ _ List.getElem?_concat_length) ?_
          (hcs.spread F (F.case hself) (fun a key c hkey hc ↦ ?_) ht₂)) .nil))
    · simpa [anchorOf, armAnchor, ← hcs.length.1] using hs.place
    · have hcase := hallows a key (by rw [List.getElem?_append_left (List.getElem?_eq_some_iff.1 hkey).1, hkey])
      rwa [anchorOf, armAnchor, hc] at hcase
  | .whileLoop free ht hb arm₀ ho arm₁, hn, hT => by
    have hself := hn nofun free
    simp only [armTags, List.cons_append, List.nil_append, List.cons_subset, List.append_subset] at hT
    obtain ⟨h₀, h₁, ⟨ht₁, ht₂⟩, ht₃⟩ := hT
    exact spread_mk (.woven hself (.whileLoop free ht hb arm₀ ho arm₁))
      (spread_child_cons (ht.spread F (F.field 0 hself rfl) ht₁)
        (spread_many_cons (arm₀.interleaved (F.allows hself rfl h₀) (hb.anchor_eq rfl)
            (hb.spread F (F.field 1 hself rfl).block ht₂))
          (spread_many_cons (arm₁.interleaved (F.allows hself rfl h₁) (ho.anchor_eq ht.place)
            (ho.spread F (F.field 2 hself rfl).block ht₃)) .nil)))
  | .forLoop free ht hs hb arm₀ ho arm₁ kept, hn, hT => by
    have hself := hn nofun free
    simp only [armTags, List.cons_append, List.nil_append, List.cons_subset, List.append_subset] at hT
    obtain ⟨h₀, h₁, ⟨⟨ht₁, ht₂⟩, ht₃⟩, ht₄⟩ := hT
    exact spread_mk (.woven hself (.forLoop free ht hs hb arm₀ ho arm₁ kept))
      (spread_child_cons (ht.spread F (F.field 0 hself rfl) ht₁)
        (spread_child_cons (hs.spread F (F.field 1 hself rfl) ht₂)
          (spread_many_cons (arm₀.interleaved (F.allows hself rfl h₀) (hb.anchor_eq rfl)
              (hb.spread F (F.field 2 hself rfl).block ht₃))
            (spread_many_cons (arm₁.interleaved (F.allows hself rfl h₁) (ho.anchor_eq hs.place)
              (ho.spread F (F.field 3 hself rfl).block ht₄)) (spread_same_cons kept .nil)))))
  | .tryStmt free hb hh ho hf arms, hn, hT => by
    have hself := hn nofun free
    simp only [armTags, List.cons_append, List.nil_append, List.cons_subset, List.append_subset] at hT
    obtain ⟨h₀, -, ⟨⟨ht₁, ht₂⟩, ht₃⟩, ht₄⟩ := hT
    exact spread_mk (.woven hself (.tryStmt free hb hh ho hf arms))
      (spread_many_cons (arms.interleaved (F.allows hself rfl h₀) (hb.anchor_eq rfl)
          (hb.spread F (F.field 0 hself rfl).block ht₁))
        (spread_many_cons (hh.spread F (F.handler hself) ht₂)
          (spread_many_cons (ho.spread F (F.field 2 hself rfl).block ht₃)
            (spread_many_cons (hf.spread F (F.field 3 hself rfl).block ht₄) .nil))))
  | .plain free noRule hfs, hn, hT =>
    have hself := hn nofun free
    spread_mk (.woven hself (.plain free noRule hfs)) (hfs.spread F (fun k _ _ ↦ F.plain hself noRule k) hT)

theorem WovenChain.spread {i : NodeId} {p : Place} {arms t : List Tag} {fs : List Field} {n' : Node}
    (F : Setting plan marks E T New) (free : marks.contains i = false) (hself : E (.mk i .ifStmt p fs)) :
    WovenChain plan marks first final i p arms fs t n' → arms ⊆ T → t ⊆ T →
      Spread plan marks first final E New (Node.mk i .ifStmt p fs).nodes n'.nodes
  | .last held ht hb arm₀ ho arm₁, harms, hT => by
    simp only [armTags, List.cons_subset, List.append_subset] at harms hT
    obtain ⟨h₀, h₁, -⟩ := harms
    obtain ⟨⟨ht₁, ht₂⟩, ht₃⟩ := hT
    exact spread_mk (.woven hself (.ifStmt free (.last held ht hb arm₀ ho arm₁)))
      (spread_child_cons (ht.spread F (F.field 0 hself rfl) ht₁)
        (spread_many_cons (arm₀.interleaved (F.allows hself rfl h₀) (hb.anchor_eq rfl)
            (hb.spread F (F.field 1 hself rfl).block ht₂))
          (spread_many_cons (arm₁.interleaved (F.allows hself rfl h₁) (ho.anchor_eq ht.place)
            (ho.spread F (F.field 2 hself rfl).block ht₃)) .nil)))
  | .link held walked ht hb arm next, harms, hT => by
    simp only [List.cons_subset, List.append_subset] at harms hT
    obtain ⟨h₀, harms⟩ := harms
    obtain ⟨⟨ht₁, ht₂⟩, -, -, ht₃⟩ := hT
    have hfree := free_of_not_passesOver walked
    have hnext := (F.field 2 hself rfl).block _ (List.mem_singleton.2 rfl) nofun hfree (kept_of_not_passesOver walked)
    exact spread_mk (.woven hself (.ifStmt free (.link held walked ht hb arm next)))
      (spread_child_cons (ht.spread F (F.field 0 hself rfl) ht₁)
        (spread_many_cons (arm.interleaved (F.allows hself rfl h₀) (hb.anchor_eq rfl)
            (hb.spread F (F.field 1 hself rfl).block ht₂))
          (spread_many_cons (spread_nodes_cons (next.spread F hfree hnext harms ht₃) .nil) .nil)))
  | .other noLink kept, _, _ => spread_mk (.woven hself (.ifStmt free (.other noLink kept))) (spread_keptFields kept)

theorem WovenBlock.spread {doc : Bool} {body b : List Node} {t : List Tag} (F : Setting plan marks E T New) :
    WovenBlock plan marks first final doc body t b →
      (∀ s ∈ body, s ≠ .gap → marks.holds s = false → plan.excludes s = false → E s) → t ⊆ T →
      Spread plan marks first final E New (nodesNodes body) (nodesNodes b)
  | .nil, _, _ => .nil
  | .skip _ kept hrest, hbody, hT =>
    spread_nodes_cons (spread_keptNode kept)
      (hrest.spread F (List.forall_mem_cons.1 hbody).2 (List.append_subset.1 hT).2)
  | .gap hrest, hbody, hT => spread_nodes_cons .nil (hrest.spread F (List.forall_mem_cons.1 hbody).2 hT)
  | .stmt walked held hs hrest counted, hbody, hT => by
    obtain ⟨hhead, htail⟩ := List.forall_mem_cons.1 hbody
    have hself := hhead nofun (free_of_not_passesOver walked) (kept_of_not_passesOver walked)
    simp only [List.cons_subset, List.append_subset] at hT
    obtain ⟨hlabel, ht₁, ht₂⟩ := hT
    exact counted.interleaved (F.allows hself rfl hlabel) rfl
      (spread_nodes_cons (hs.spread F (fun _ _ ↦ hself) ht₁) (hrest.spread F htail ht₂))

theorem WovenOperands.spread {keys : List (Option Key)} {vs ws : List Node} {t : List Tag}
    (F : Setting plan marks E T New) :
    WovenOperands plan marks first final keys vs t ws → (∀ v ∈ vs, v ≠ .gap → marks.holds v = false → E v) →
      (∀ (a : Nat) key v, keys[a]? = some key → vs[a]? = some v → Allows plan New key v) → t ⊆ T →
      Spread plan marks first final E New (nodesNodes vs) (nodesNodes ws)
  | .nil, _, _, _ => .nil
  | .cons hv arm hvs, hall, hnew, hT => by
    obtain ⟨hhead, htail⟩ := List.forall_mem_cons.1 hall
    obtain ⟨ht₁, ht₂⟩ := List.append_subset.1 hT
    exact spread_nodes_cons (arm.interleaved (hnew 0 _ _ rfl rfl) hv.id? hv.place (hv.spread F hhead ht₁))
      (hvs.spread F htail (fun a ↦ hnew (a + 1)) ht₂)

theorem WovenCases.spread {keys : List (Option Key)} {cs cs' : List Node} {t : List Tag}
    (F : Setting plan marks E T New) :
    WovenCases plan marks first final keys cs t cs' →
      (∀ {j c q pattern guard body}, .mk j c q [pattern, guard, .many body] ∈ cs →
        Stays plan marks E "guard" guard ∧ Stays plan marks E "body" (.many body)) →
      (∀ (a : Nat) key c, keys[a]? = some key → cs[a]? = some c →
        Allows plan New key (firstOr .gap ((caseBody? c).getD []))) → t ⊆ T →
      Spread plan marks first final E New (nodesNodes cs) (nodesNodes cs')
  | .nil, _, _, _ => .nil
  | .cons kept hg hb arm hrest, hall, hnew, hT => by
    obtain ⟨hguard, hbody⟩ := hall List.mem_cons_self
    simp only [List.append_subset] at hT
    obtain ⟨⟨⟨-, ht₁⟩, ht₂⟩, ht₃⟩ := hT
    exact spread_nodes_cons (spread_mk (.case kept hg hb arm) (spread_child_cons (spread_keptNode kept)
        (spread_fieldsNodes_cons (hg.spread F hguard ht₁) (spread_many_cons
          (arm.interleaved (hnew 0 _ _ rfl rfl) (hb.anchor_eq rfl) (hb.spread F hbody.block ht₂)) .nil))))
      (hrest.spread F (fun hmem ↦ hall (List.mem_cons_of_mem _ hmem)) (fun a ↦ hnew (a + 1)) ht₃)

theorem WovenHandlers.spread {hs hs' : List Node} {t : List Tag} (F : Setting plan marks E T New) :
    WovenHandlers plan marks first final hs t hs' →
      (∀ {j c q type name block}, .mk j c q [type, name, .many block] ∈ hs →
        Stays plan marks E "type" type ∧ Stays plan marks E "body" (.many block)) → t ⊆ T →
      Spread plan marks first final E New (nodesNodes hs) (nodesNodes hs')
  | .other _ kept, _, _ => spread_keptNodes kept
  | .cons kept ht hb hrest, hall, hT => by
    obtain ⟨htype, hbody⟩ := hall List.mem_cons_self
    simp only [List.append_subset] at hT
    obtain ⟨⟨ht₁, ht₂⟩, ht₃⟩ := hT
    exact spread_nodes_cons (spread_mk (.handler kept ht hb) (spread_fieldsNodes_cons (ht.spread F htype ht₁)
        (spread_same_cons kept (spread_many_cons (hb.spread F hbody.block ht₂) .nil))))
      (hrest.spread F (fun hmem ↦ hall (List.mem_cons_of_mem _ hmem)) ht₃)

theorem WovenFields.spread {names : List String} {fs fs' : List Field} {t : List Tag} (F : Setting plan marks E T New) :
    WovenFields plan marks first final names fs t fs' →
      (∀ (k : Nat) {name f}, names[k]? = some name → fs[k]? = some f → isSkippedField name = false →
        Stays plan marks E name f) → t ⊆ T →
      Spread plan marks first final E New (fieldsNodes fs) (fieldsNodes fs')
  | .done, _, _ => .nil
  | .beyond kept, _, _ => spread_keptFields kept
  | .skipped _ kept hfs, hall, hT => spread_same_cons kept (hfs.spread F (fun k ↦ hall (k + 1)) hT)
  | .walked into hf hfs, hall, hT =>
    spread_fieldsNodes_cons (hf.spread F (hall 0 rfl rfl into) (List.append_subset.1 hT).1)
      (hfs.spread F (fun k ↦ hall (k + 1)) (List.append_subset.1 hT).2)

theorem WovenField.spread {name : String} {f f' : Field} {t : List Tag} (F : Setting plan marks E T New) :
    WovenField plan marks first final f t f' → Stays plan marks E name f → t ⊆ T →
      Spread plan marks first final E New (f.children.flatMap Node.nodes) (f'.children.flatMap Node.nodes)
  | .child hn, hstays, hT => by simpa [Field.children] using hn.spread F hstays hT
  | .block _ hns, hstays, hT => by
    rw [Field.children, Field.children, ← nodesNodes_eq_flatMap, ← nodesNodes_eq_flatMap]
    exact hns.spread F hstays.block hT
  | .all starts hns, hstays, hT => by
    rw [Field.children, Field.children, ← nodesNodes_eq_flatMap, ← nodesNodes_eq_flatMap]
    exact hns.spread F (hstays.all (.inr starts)) hT
  | .atom holdsNone, _, _ => by
    rw [children_of_isAtom holdsNone]
    exact .nil

theorem WovenAll.spread {ns ns' : List Node} {t : List Tag} (F : Setting plan marks E T New) :
    WovenAll plan marks first final ns t ns' → (∀ n ∈ ns, n ≠ .gap → marks.holds n = false → E n) → t ⊆ T →
      Spread plan marks first final E New (nodesNodes ns) (nodesNodes ns')
  | .nil, _, _ => .nil
  | .cons hn hns, hall, hT =>
    spread_nodes_cons (hn.spread F (List.forall_mem_cons.1 hall).1 (List.append_subset.1 hT).1)
      (hns.spread F (List.forall_mem_cons.1 hall).2 (List.append_subset.1 hT).2)
end

/-! ## Places -/

theorem children_fillFields (outer : Place) (fs : List Field) :
    (fillFields outer fs).flatMap Field.children = (fs.flatMap Field.children).map (Node.fillPlaces outer) := by
  induction fs with
  | nil => simp
  | cons f fs ih =>
    rw [fillFields_cons, List.flatMap_cons, List.flatMap_cons, List.map_append, ih]
    cases f <;> simp [Field.fillPlaces, Field.children, fillNodes_eq_map]

/-- Filling in places changes each node on its own. -/
theorem nodes_fillPlaces (n : Node) (outer : Place) :
    List.Forall₂ (fun m m' ↦ ∃ o, m' = Node.fillPlaces o m) n.nodes (n.fillPlaces outer).nodes := by
  induction n using Node.induction generalizing outer with
  | gap =>
    rw [Node.fillPlaces_gap, Node.nodes]
    exact .nil
  | mk i c p fs ih =>
    have hself : Node.mk i c (c.ownPlace p outer) (fillFields (c.innerPlace p outer) fs) =
        (Node.mk i c p fs).fillPlaces outer := (Node.fillPlaces_mk i c p fs).symm
    rw [Node.fillPlaces_mk, nodes_mk, nodes_mk, Node.children, Node.children, children_fillFields]
    refine .cons ⟨outer, hself⟩ ?_
    have hall : ∀ m ∈ fs.flatMap Field.children, ∀ o,
        List.Forall₂ (fun m m' ↦ ∃ o, m' = Node.fillPlaces o m) m.nodes (m.fillPlaces o).nodes := ih
    generalize fs.flatMap Field.children = ms at hall
    induction ms with
    | nil => exact .nil
    | cons m ms ihms =>
      obtain ⟨hm, hms⟩ := List.forall_mem_cons.1 hall
      rw [List.map_cons, List.flatMap_cons, List.flatMap_cons]
      exact List.rel_append (hm _) (ihms hms)

/-- The nodes of the result of a pass. -/
theorem interleaved_instrument {next : NodeId} {tree : Node} {i : Instrumented} (htree : Identified next tree)
    (h : instrument plan marks next tree = .ok i) (F : Setting plan marks E (roster plan marks tree).tags New)
    (hroot : tree ≠ .gap → marks.holds tree = false → E tree) :
    Interleaved (fun m m' ↦ ∃ w, Rewoven plan marks next i.marks E m w ∧ ∃ o, m' = w.fillPlaces o)
      (fun m' ↦ ∃ w, New w ∧ ∃ o, m' = w.fillPlaces o) tree.nodes i.tree.nodes := by
  obtain ⟨n, hwoven, hfilled, -⟩ := instrument_spec htree h
  rw [hfilled]
  exact (hwoven.spread F hroot (List.Subset.refl _)).comp (nodes_fillPlaces n .start)

end Interleaving

end Coverage.Pass
