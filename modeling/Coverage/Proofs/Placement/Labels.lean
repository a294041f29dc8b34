import Coverage.Proofs.Erasure
import Coverage.Proofs.Placement.Ranges
import Coverage.Proofs.Validity.Nodes

/-!
# Where labels are put

A label with a key stands for a probe, and its event says where in a woven tree the probe is: the counter of a statement
right in front of it, those of entries and arms at the node they belong to. Counters that are put in later, and guards
around whole blocks, leave the counters of the statements where they are.
-/

namespace Coverage.Pass

open Syntax Program

variable {keys : List (Option Key)} {place : Place}

section Definitions

variable (plan : Plan) (marks : Marks) (first : NodeId) (final : Marks)

/-- The probe for an event of the first node stands in the second, which is woven from it. -/
inductive Owns (T : List Tag) : Node → Node → Event → Key → Prop
  | entry {i async p name args body decorators returns comment t a b b' ds key}
    (hb : WovenBlock plan marks first final true body t b)
    (entry : Entered plan first final (some key) (startsWithDocstring body) b b') :
    Owns T (.mk i (.functionDef async) p [.text name, .child args, .many body, .many decorators, returns, comment])
      (.mk i (.functionDef async) p [.text name, .child a, .many b', .many ds, returns, comment]) (.entered i) key
  | lambda {i p args body t a b b' key} (hb : Woven plan marks first final body t b)
    (entry : Wrapped plan first final (some key) b b') :
    Owns T (.mk i .lambda p [.child args, .child body]) (.mk i .lambda p [.child a, .child b']) (.entered i) key
  | clause {i c p fs fs' k block t b b' place key} (source : armBlock? (.mk i c p fs) k = some block)
    (target : armBlock? (.mk i c p fs') k = some b') (hb : WovenBlock plan marks first final false block t b)
    (arm : Counted plan first final (some key) place b b') : Owns T (.mk i c p fs) (.mk i c p fs') (.took i k) key
  | fallback {i c p fs fs' k place j key} (source : armBlock? (.mk i c p fs) k = none)
    (target : armBlock? (.mk i c p fs') k = some [Probe.counter plan key place j]) (fresh : first ≤ j) :
    Owns T (.mk i c p fs) (.mk i c p fs') (.took i k) key
  | operand {i c p fs fs' k x t x' w key} (source : armExpr? (.mk i c p fs) k = some x)
    (target : armExpr? (.mk i c p fs') k = some w) (hx : Woven plan marks first final x t x')
    (arm : Wrapped plan first final (some key) x' w) : Owns T (.mk i c p fs) (.mk i c p fs') (.took i k) key
  | guarded {i star p body handlers orelse finalbody t b b' h o f ok error k key}
    (hb : WovenBlock plan marks first final false body t b)
    (arms : Guarded plan first final (some ok) (some error) b b')
    (normal : .label (.took i 0) (some ok) ∈ T) (raised : .label (.took i 1) (some error) ∈ T)
    (arm : [ok, error][k]? = some key) :
    Owns T (.mk i (.tryStmt star) p [.many body, .many handlers, .many orelse, .many finalbody])
      (.mk i (.tryStmt star) p [.many b', .many h, .many o, .many f]) (.took i k) key

/-- The counter of a statement of the first list stands right in front of it in the second. -/
inductive Front (block b : List Node) : Event → Key → Prop
  | intro {i c p fs t s' place j key} (hs : .mk i c p fs ∈ block)
    (woven : Woven plan marks first final (.mk i c p fs) t s')
    (fresh : first ≤ j) (front : [Probe.counter plan key place j, s'] <:+: b) : Front block b (.started i) key

/-- The probe for an event stands among the nodes of the second list, which are woven from those of the first. -/
inductive Found (N N' : List Node) (T : List Tag) : Event → Key → Prop
  | started {o o' block block' doc t b event key} (ho : o ∈ N) (source : .many block ∈ o.fields) (ho' : o' ∈ N')
    (target : .many block' ∈ o'.fields) (hb : WovenBlock plan marks first final doc block t b)
    (same : eraseNodes first block' = eraseNodes first b)
    (front : Front plan marks first final block block' event key) :
    Found N N' T event key
  | node {n n' t event key} (hn : n ∈ N) (hn' : n' ∈ N') (woven : Woven plan marks first final n t n')
    (owns : Owns plan marks first final T n n' event key) : Found N N' T event key

/-- Every label with a key has its probe among the nodes. -/
def Tracks (N N' : List Node) (t : List Tag) : Prop :=
  ∀ event key, .label event (some key) ∈ t → Found plan marks first final N N' t event key

/-- Every label with a key has its probe in the block itself, or among the nodes below. -/
def BlockTracks (block b : List Node) (t : List Tag) : Prop :=
  ∀ event key, .label event (some key) ∈ t →
    Front plan marks first final block b event key ∨
      Found plan marks first final (nodesNodes block) (nodesNodes b) t event key

/-- The block is in a list of one of the nodes, perhaps with a counter more. -/
structure Housed (N' : List Node) (b : List Node) : Prop where
  below : nodesNodes b ⊆ N'
  list : ∃ o' ∈ N', ∃ block', .many block' ∈ o'.fields ∧ eraseNodes first block' = eraseNodes first b ∧
    ∀ key place j s, [Probe.counter plan key place j, s] <:+: b → [Probe.counter plan key place j, s] <:+: block'

end Definitions

variable {plan : Plan} {marks : Marks} {first : NodeId} {final : Marks}

/-! ## Labels -/

section Tracks

variable {N N' M M' : List Node} {T T' t t' : List Tag} {event : Event} {key : Key}

theorem Owns.mono {n n' : Node} (h : Owns plan marks first final T n n' event key) (hT : T ⊆ T') :
    Owns plan marks first final T' n n' event key := by
  cases h with
  | entry hb entry => exact .entry hb entry
  | lambda hb entry => exact .lambda hb entry
  | clause source target hb arm => exact .clause source target hb arm
  | fallback source target fresh => exact .fallback source target fresh
  | operand source target hx arm => exact .operand source target hx arm
  | guarded hb arms normal raised arm => exact .guarded hb arms (hT normal) (hT raised) arm

/-- Counters that are found in a part are found in the whole. -/
theorem Found.mono (h : Found plan marks first final N N' T event key) (hN : N ⊆ M) (hN' : N' ⊆ M') (hT : T ⊆ T') :
    Found plan marks first final M M' T' event key := by
  cases h with
  | started ho source ho' target hb same front => exact .started (hN ho) source (hN' ho') target hb same front
  | node hn hn' woven owns => exact .node (hN hn) (hN' hn') woven (owns.mono hT)

theorem Found.among (h : Found plan marks first final N N' T event key) (hT : T ⊆ T') :
    Found plan marks first final N N' T' event key :=
  h.mono (List.Subset.refl _) (List.Subset.refl _) hT

theorem Tracks.mono (h : Tracks plan marks first final N N' t) (hN : N ⊆ M) (hN' : N' ⊆ M') :
    Tracks plan marks first final M M' t :=
  fun event key hlabel ↦ (h event key hlabel).mono hN hN' (List.Subset.refl _)

theorem tracks_nil : Tracks plan marks first final N N' [] := fun _ _ hlabel ↦ by cases hlabel

theorem Tracks.append (h : Tracks plan marks first final N N' t) (h' : Tracks plan marks first final N N' t') :
    Tracks plan marks first final N N' (t ++ t') := by
  intro event key hlabel
  rcases List.mem_append.1 hlabel with hlabel | hlabel
  · exact (h event key hlabel).among (List.subset_append_left _ _)
  · exact (h' event key hlabel).among (List.subset_append_right _ _)

theorem tracks_cons {key : Option Key} (hkey : ∀ k, key = some k → Found plan marks first final N N' t event k)
    (h : Tracks plan marks first final N N' t) : Tracks plan marks first final N N' (.label event key :: t) := by
  intro e k hlabel
  rcases List.mem_cons.1 hlabel with heq | hlabel
  · cases heq
    exact (hkey k rfl).among (List.subset_cons_self _ _)
  · exact (h e k hlabel).among (List.subset_cons_self _ _)

/-- Only labels with a key matter, in any order. -/
theorem Tracks.rearrange (h : Tracks plan marks first final N N' t) (hsub : t ⊆ t')
    (hlabels : ∀ event key, .label event (some key) ∈ t' → .label event (some key) ∈ t) :
    Tracks plan marks first final N N' t' :=
  fun event key hlabel ↦ (h event key (hlabels event key hlabel)).among hsub

/-- The labels of a node and of the nodes after it. -/
theorem Tracks.both {n n' : Node} {ns ns' : List Node} (h : Tracks plan marks first final n.nodes n'.nodes t)
    (h' : Tracks plan marks first final (nodesNodes ns) (nodesNodes ns') t') :
    Tracks plan marks first final (nodesNodes (n :: ns)) (nodesNodes (n' :: ns')) (t ++ t') :=
  (h.mono (List.subset_append_left _ _) (List.subset_append_left _ _)).append
    (h'.mono (List.subset_append_right _ _) (List.subset_append_right _ _))

theorem not_mem_hushTags (ids : List NodeId) : .label event (some key) ∉ hushTags ids := by
  simp [hushTags]

theorem tracks_hush (ids : List NodeId) : Tracks plan marks first final N N' (hushTags ids) :=
  fun _ _ hlabel ↦ absurd hlabel (not_mem_hushTags ids)

theorem mem_armTags {i : NodeId} {a : Nat} (h : .label event (some key) ∈ armTags i a keys) :
    ∃ k, event = .took i (a + k) ∧ keys[k]? = some (some key) := by
  induction keys generalizing a with
  | nil => cases h
  | cons head keys ih =>
    rcases List.mem_cons.1 h with heq | h
    · cases heq
      exact ⟨0, rfl, rfl⟩
    · obtain ⟨k, rfl, hk⟩ := ih h
      exact ⟨k + 1, by rw [Nat.add_right_comm, Nat.add_assoc], hk⟩

section Node

variable {i : NodeId} {c : NodeClass} {p : Place} {fs fs' : List Field}

theorem Tracks.child {n n' : Node} (h : Tracks plan marks first final n.nodes n'.nodes t) (source : .child n ∈ fs)
    (target : .child n' ∈ fs') : Tracks plan marks first final (Node.mk i c p fs).nodes (Node.mk i c p fs').nodes t :=
  h.mono (nodes_of_child source) (nodes_of_child target)

theorem Tracks.many {ns ns' : List Node} (h : Tracks plan marks first final (nodesNodes ns) (nodesNodes ns') t)
    (source : .many ns ∈ fs) (target : .many ns' ∈ fs') :
    Tracks plan marks first final (Node.mk i c p fs).nodes (Node.mk i c p fs').nodes t :=
  h.mono (nodes_of_many source) (nodes_of_many target)

/-- The label of the entry of a node. -/
theorem tracks_entry {key : Option Key} {u : List Tag}
    (woven : Woven plan marks first final (.mk i c p fs) u (.mk i c p fs'))
    (owns : ∀ k, key = some k → Owns plan marks first final t (.mk i c p fs) (.mk i c p fs') event k)
    (h : Tracks plan marks first final (Node.mk i c p fs).nodes (Node.mk i c p fs').nodes t) :
    Tracks plan marks first final (Node.mk i c p fs).nodes (Node.mk i c p fs').nodes (.label event key :: t) :=
  tracks_cons (fun k hk ↦ .node (self_mem_nodes Node.mk_ne_gap) (self_mem_nodes Node.mk_ne_gap) woven (owns k hk)) h

/-- The labels of the arms of a node. -/
theorem tracks_arms (woven : Woven plan marks first final (.mk i c p fs) (armTags i 0 keys ++ t) (.mk i c p fs'))
    (owns : ∀ k key, keys[k]? = some (some key) →
      Owns plan marks first final (armTags i 0 keys ++ t) (.mk i c p fs) (.mk i c p fs') (.took i k) key)
    (h : Tracks plan marks first final (Node.mk i c p fs).nodes (Node.mk i c p fs').nodes t) :
    Tracks plan marks first final (Node.mk i c p fs).nodes (Node.mk i c p fs').nodes (armTags i 0 keys ++ t) := by
  intro event key hlabel
  rcases List.mem_append.1 hlabel with hlabel | hlabel
  · obtain ⟨k, rfl, hk⟩ := mem_armTags hlabel
    rw [Nat.zero_add]
    exact .node (self_mem_nodes Node.mk_ne_gap) (self_mem_nodes Node.mk_ne_gap) woven (owns k key hk)
  · exact (h event key hlabel).among (List.subset_append_right _ _)

theorem owns_two {T : List Tag} {n n' : Node} {k₀ k₁ : Option Key}
    (arm₀ : ∀ key, k₀ = some key → Owns plan marks first final T n n' (.took i 0) key)
    (arm₁ : ∀ key, k₁ = some key → Owns plan marks first final T n n' (.took i 1) key) :
    ∀ k key, [k₀, k₁][k]? = some (some key) → Owns plan marks first final T n n' (.took i k) key
  | 0, key, h => arm₀ key (Option.some.inj h)
  | 1, key, h => arm₁ key (Option.some.inj h)
  | k + 2, _, h => by cases h

end Node

end Tracks

/-! ## Blocks -/

section Blocks

variable {i : NodeId} {c : NodeClass} {p : Place} {fs fs' : List Field} {t : List Tag} {b b' block : List Node}

theorem Housed.mono {N' M' : List Node} (h : Housed plan first N' b) (hN' : N' ⊆ M') : Housed plan first M' b where
  below := List.Subset.trans h.below hN'
  list := by
    obtain ⟨o', ho', hlist⟩ := h.list
    exact ⟨o', hN' ho', hlist⟩

theorem housed_self (h : .many b ∈ fs') : Housed plan first (Node.mk i c p fs').nodes b where
  below := nodes_of_many h
  list := ⟨_, self_mem_nodes Node.mk_ne_gap, b, h, rfl, fun _ _ _ _ hfront ↦ hfront⟩

theorem Counted.suffix {key : Option Key} (h : Counted plan first final key place b b') : b <:+ b' := by
  cases h with
  | bare => exact List.suffix_rfl
  | front => exact List.suffix_cons _ _

theorem Counted.housed {key : Option Key} (h : Counted plan first final key place b b')
    (hb' : .many b' ∈ fs') : Housed plan first (Node.mk i c p fs').nodes b where
  below := List.Subset.trans (nodesNodes_subset h.suffix.subset) (nodes_of_many hb')
  list := ⟨_, self_mem_nodes Node.mk_ne_gap, b', hb', h.erase, fun _ _ _ _ hfront ↦ hfront.trans h.suffix.isInfix⟩

theorem WovenBlock.startsWithDocstring (h : WovenBlock plan marks first final true block t b)
    (hdoc : Pass.startsWithDocstring block = true) : Pass.startsWithDocstring b = true := by
  obtain ⟨d, rest, t', rest', hd, rfl, rfl, -, -⟩ := h.docstring hdoc
  exact hd

/-- The body of a function is found behind its docstring and counter. -/
theorem Entered.housed {key : Option Key} {doc : Bool} (h : Entered plan first final key doc b b')
    (hdoc : doc = true → Pass.startsWithDocstring b = true) (hb' : .many b' ∈ fs') :
    Housed plan first (Node.mk i c p fs').nodes b where
  below := by
    refine List.Subset.trans ?_ (nodes_of_many hb')
    cases h <;> simp [nodesNodes]
  list := by
    refine ⟨_, self_mem_nodes Node.mk_ne_gap, b', hb', h.erase, fun key place j s hfront ↦ ?_⟩
    cases h with
    | bare => exact hfront
    | front => exact hfront.trans (List.suffix_cons _ _).isInfix
    | behind =>
      rcases List.infix_cons_iff.1 hfront with hhead | hrest
      · -- A counter is no docstring, so it does not stand where the docstring is.
        obtain ⟨rfl, -⟩ := List.cons_prefix_cons.1 hhead
        have hcounter : (Probe.counter plan key place j).isDocstring = true := hdoc rfl
        simp [Probe.counter, Probe.call, Node.isDocstring] at hcounter
      · exact hrest.trans ((List.suffix_cons _ _).trans (List.suffix_cons _ _)).isInfix
    | last =>
      have hlength := hfront.length_le
      simp at hlength

theorem Guarded.housed {k₀ k₁ : Option Key} (h : Guarded plan first final k₀ k₁ b b') (hb' : .many b' ∈ fs') :
    Housed plan first (Node.mk i c p fs').nodes b := by
  cases h with
  | bare => exact housed_self hb'
  | @guarded ok error s b j fresh =>
    have hguard : Housed plan first (Probe.guard plan ok error s.place (s :: b) j).nodes (s :: b) :=
      housed_self (by simp)
    exact hguard.mono (List.Subset.trans (List.subset_append_left _ _) (nodes_of_many hb'))

/-- The labels of a block that stands in a list of a node. -/
theorem BlockTracks.within {doc : Bool} (h : BlockTracks plan marks first final block b t)
    (hb : WovenBlock plan marks first final doc block t b) (source : .many block ∈ fs)
    (housed : Housed plan first (Node.mk i c p fs').nodes b) :
    Tracks plan marks first final (Node.mk i c p fs).nodes (Node.mk i c p fs').nodes t := by
  intro event key hlabel
  rcases h event key hlabel with hfront | hfound
  · obtain ⟨o', ho', block', htarget, same, hkeep⟩ := housed.list
    cases hfront with
    | intro hs woven fresh front =>
      exact .started (self_mem_nodes Node.mk_ne_gap) source ho' htarget hb same
        (.intro hs woven fresh (hkeep _ _ _ _ front))
  · exact hfound.mono (nodes_of_many source) housed.below (List.Subset.refl _)

end Blocks

/-! ## Operands and cases -/

theorem Wrapped.nodes_subset {key : Option Key} {e e' : Node} (h : Wrapped plan first final key e e') :
    e.nodes ⊆ e'.nodes := by
  cases h with
  | bare => exact List.Subset.refl _
  | wrapped =>
    rw [nodes_wrapper]
    exact List.subset_append_right _ _

theorem Tracks.wrapped {N : List Node} {t : List Tag} {key : Option Key} {e e' : Node}
    (h : Tracks plan marks first final N e.nodes t) (hw : Wrapped plan first final key e e') :
    Tracks plan marks first final N e'.nodes t :=
  h.mono (List.Subset.refl _) hw.nodes_subset

theorem Completed.nodes_subset {key : Option Key} {cs cs' : List Node}
    (h : Completed plan first final key place cs cs') : nodesNodes cs ⊆ nodesNodes cs' := by
  cases h with
  | bare => exact List.Subset.refl _
  | fallback =>
    rw [nodesNodes_eq_flatMap, nodesNodes_eq_flatMap, List.flatMap_append]
    exact List.subset_append_left _ _

/-- The operand that a key counts. -/
theorem WovenOperands.operand {vs ws : List Node} {t : List Tag} {k : Nat} {key : Key}
    (h : WovenOperands plan marks first final keys vs t ws) (hk : keys[k]? = some (some key)) :
    ∃ x t' x' w, vs[k]? = some x ∧ ws[k]? = some w ∧ Woven plan marks first final x t' x' ∧
      Wrapped plan first final (some key) x' w := by
  induction keys generalizing vs ws t k with
  | nil => cases hk
  | cons head keys ih =>
    cases h with
    | cons hv arm hvs =>
      cases k with
      | zero =>
        cases hk
        exact ⟨_, _, _, _, rfl, rfl, hv, arm⟩
      | succ k =>
        obtain ⟨x, t', x', w, harm⟩ := ih hvs hk
        exact ⟨x, t', x', w, harm⟩

/-- The case that a key counts. -/
theorem WovenCases.clause {cs cs' : List Node} {t : List Tag} {k : Nat} {key : Key}
    (h : WovenCases plan marks first final keys cs t cs') (hk : keys[k]? = some (some key)) :
    ∃ block t' b b' place, cs[k]? >>= caseBody? = some block ∧ cs'[k]? >>= caseBody? = some b' ∧
      WovenBlock plan marks first final false block t' b ∧ Counted plan first final (some key) place b b' := by
  induction keys generalizing cs cs' t k with
  | nil => cases hk
  | cons head keys ih =>
    cases h with
    | cons kept hg hb arm hrest =>
      cases k with
      | zero =>
        cases hk
        exact ⟨_, _, _, _, _, rfl, rfl, hb, arm⟩
      | succ k =>
        obtain ⟨block, t', b, b', place, harm⟩ := ih hrest hk
        exact ⟨block, t', b, b', place, harm⟩

/-- The two keys of a `try` are found in its guard. -/
theorem owns_try {i : NodeId} {star : Bool} {p : Place} {body handlers orelse finalbody b b' h o f : List Node}
    {k₀ k₁ : Option Key} {t T : List Tag} (hb : WovenBlock plan marks first final false body t b)
    (arms : Guarded plan first final k₀ k₁ b b') (normal : .label (.took i 0) k₀ ∈ T)
    (raised : .label (.took i 1) k₁ ∈ T)
    (k : Nat) (key : Key) (hk : [k₀, k₁][k]? = some (some key)) :
    Owns plan marks first final T (.mk i (.tryStmt star) p [.many body, .many handlers, .many orelse, .many finalbody])
      (.mk i (.tryStmt star) p [.many b', .many h, .many o, .many f]) (.took i k) key := by
  cases arms with
  | bare => match k with
    | 0 | 1 => cases hk
    | k + 2 => cases hk
  | @guarded ok error s b j fresh =>
    refine .guarded hb (.guarded fresh) normal raised ?_
    match k with
    | 0 | 1 =>
      cases hk
      rfl
    | k + 2 => cases hk

/-- The arms of a `match`: those of its cases, and the one of a case that is added. -/
theorem owns_match {i : NodeId} {p : Place} {subject s : Node} {cases cs cs' : List Node}
    {last : Option Key} {t T : List Tag} (hcs : WovenCases plan marks first final keys cases t cs)
    (rest : Completed plan first final last place cs cs') (k : Nat) (key : Key)
    (hk : (keys ++ [last])[k]? = some (some key)) :
    Owns plan marks first final T (.mk i .matchStmt p [.child subject, .many cases])
      (.mk i .matchStmt p [.child s, .many cs']) (.took i k) key := by
  obtain ⟨hlen, hlen'⟩ := hcs.length
  rcases Nat.lt_or_ge k keys.length with hlt | hge
  · rw [List.getElem?_append_left hlt] at hk
    obtain ⟨block, t', b, b', place', source, target, hb, arm⟩ := hcs.clause hk
    refine .clause source ?_ hb arm
    have hsame : cs'[k]? = cs[k]? := by
      cases rest with
      | bare => rfl
      | fallback => exact List.getElem?_append_left (by omega)
    change cs'[k]? >>= caseBody? = some b'
    rw [hsame]
    exact target
  · rw [List.getElem?_append_right hge] at hk
    obtain ⟨hzero, rfl⟩ : k - keys.length = 0 ∧ last = some key := by
      cases hpos : k - keys.length with
      | zero => simpa [hpos] using hk
      | succ m => simp [hpos] at hk
    cases rest with
    | @fallback _ _ _ j fresh =>
      have source : armBlock? (.mk i .matchStmt p [.child subject, .many cases]) k = none := by
        change cases[k]? >>= caseBody? = none
        rw [List.getElem?_eq_none (by omega)]
        rfl
      have target : armBlock? (.mk i .matchStmt p [.child s, .many (cs ++ [Probe.fallback plan key place j])]) k =
          some [Probe.counter plan key place (j + 2)] := by
        change (cs ++ _)[k]? >>= caseBody? = _
        rw [List.getElem?_append_right (by omega), show k - cs.length = 0 by omega]
        rfl
      exact .fallback source target (Nat.le_add_right_of_le fresh.le)

/-! ## Woven trees -/

section Blocks

variable {rest rest' block b : List Node} {t T : List Tag} {event : Event} {key : Key}

/-- The labels of a block are those of a block that ends with it. -/
theorem BlockTracks.extend (h : BlockTracks plan marks first final rest rest' t) (hblock : rest ⊆ block)
    (hb : rest' <:+ b)
    (hT : t ⊆ T) (hlabel : .label event (some key) ∈ t) : Front plan marks first final block b event key ∨
      Found plan marks first final (nodesNodes block) (nodesNodes b) T event key := by
  rcases h event key hlabel with hfront | hfound
  · cases hfront with
    | intro hs woven fresh front => exact .inl (.intro (hblock hs) woven fresh (front.trans hb.isInfix))
  · exact .inr (hfound.mono (nodesNodes_subset hblock) (nodesNodes_subset hb.subset) hT)

end Blocks

section Woven

mutual
/-- Every labelled key of a woven tree is found at its node. -/
theorem Woven.tracks {n n' : Node} {t : List Tag} :
    Woven plan marks first final n t n' → Tracks plan marks first final n.nodes n'.nodes t
  | .gap => tracks_nil
  | .marked _ _ => (tracks_hush _).rearrange (List.subset_cons_self _ _) (by simp)
  | .module _ hb _ => hb.tracks.within hb (by simp) (housed_self (by simp))
  | .classDef _ hds hbs hks hb _ =>
    (((hds.tracks.many (by simp) (by simp)).append (hbs.tracks.many (by simp) (by simp))).append
      (hks.tracks.many (by simp) (by simp))).append (hb.tracks.within hb (by simp) (housed_self (by simp)))
  | .functionDef free hds ha hb entry kept =>
    tracks_entry (.functionDef free hds ha hb entry kept) (fun _ hk ↦ .entry hb (hk ▸ entry))
      (((hds.tracks.many (by simp) (by simp)).append (ha.tracks.child (by simp) (by simp))).append
        (hb.tracks.within hb (by simp) (entry.housed hb.startsWithDocstring (by simp))))
  | .lambda dealt ha hb entry =>
    tracks_entry (.lambda dealt ha hb entry) (fun _ hk ↦ .lambda hb (hk ▸ entry))
      ((ha.tracks.child (by simp) (by simp)).append ((hb.tracks.wrapped entry).child (by simp) (by simp)))
  | .ifStmt free chain => chain.tracks free
  | .ifExp dealt ht hb ho arm₀ arm₁ =>
    tracks_arms (.ifExp dealt ht hb ho arm₀ arm₁)
      (owns_two (fun _ hk ↦ .operand rfl rfl hb (hk ▸ arm₀)) (fun _ hk ↦ .operand rfl rfl ho (hk ▸ arm₁)))
      (((ht.tracks.child (by simp) (by simp)).append ((hb.tracks.wrapped arm₀).child (by simp) (by simp))).append
        ((ho.tracks.wrapped arm₁).child (by simp) (by simp)))
  | .boolOp dealt hvs kept => by
    refine tracks_arms (.boolOp dealt hvs kept) (fun k key hk ↦ ?_) (hvs.tracks.many (by simp) (by simp))
    obtain ⟨x, t', x', w, source, target, hx, arm⟩ := hvs.operand hk
    exact .operand source target hx arm
  | .matchStmt free hs hcs rest covered =>
    tracks_arms (.matchStmt free hs hcs rest covered) (owns_match hcs rest)
      ((hs.tracks.child (by simp) (by simp)).append
        ((hcs.tracks.mono (List.Subset.refl _) rest.nodes_subset).many (by simp) (by simp)))
  | .whileLoop free ht hb arm₀ ho arm₁ =>
    tracks_arms (.whileLoop free ht hb arm₀ ho arm₁)
      (owns_two (fun _ hk ↦ .clause rfl rfl hb (hk ▸ arm₀)) (fun _ hk ↦ .clause rfl rfl ho (hk ▸ arm₁)))
      (((ht.tracks.child (by simp) (by simp)).append (hb.tracks.within hb (by simp) (arm₀.housed (by simp)))).append
        (ho.tracks.within ho (by simp) (arm₁.housed (by simp))))
  | .forLoop free ht hs hb arm₀ ho arm₁ kept =>
    tracks_arms (.forLoop free ht hs hb arm₀ ho arm₁ kept)
      (owns_two (fun _ hk ↦ .clause rfl rfl hb (hk ▸ arm₀)) (fun _ hk ↦ .clause rfl rfl ho (hk ▸ arm₁)))
      ((((ht.tracks.child (by simp) (by simp)).append (hs.tracks.child (by simp) (by simp))).append
        (hb.tracks.within hb (by simp) (arm₀.housed (by simp)))).append
          (ho.tracks.within ho (by simp) (arm₁.housed (by simp))))
  | .tryStmt free hb hh ho hf arms =>
    tracks_arms (.tryStmt free hb hh ho hf arms) (owns_try hb arms (by simp [armTags]) (by simp [armTags]))
      ((((hb.tracks.within hb (by simp) (arms.housed (by simp))).append (hh.tracks.many (by simp) (by simp))).append
        (ho.tracks.within ho (by simp) (housed_self (by simp)))).append
          (hf.tracks.within hf (by simp) (housed_self (by simp))))
  | .plain _ _ hfs => hfs.tracks (List.Subset.refl _) (List.Subset.refl _)

theorem WovenChain.tracks {i : NodeId} {p : Place} {arms t : List Tag} {fs : List Field} {n' : Node} :
    WovenChain plan marks first final i p arms fs t n' → marks.contains i = false →
      Tracks plan marks first final (Node.mk i .ifStmt p fs).nodes n'.nodes (arms ++ t)
  | .last held ht hb arm₀ ho arm₁, free =>
    tracks_arms (.ifStmt free (.last held ht hb arm₀ ho arm₁))
      (owns_two (fun _ hk ↦ .clause rfl rfl hb (hk ▸ arm₀)) (fun _ hk ↦ .clause rfl rfl ho (hk ▸ arm₁)))
      (((ht.tracks.child (by simp) (by simp)).append (hb.tracks.within hb (by simp) (arm₀.housed (by simp)))).append
        (ho.tracks.within ho (by simp) (arm₁.housed (by simp))))
  | @WovenChain.link _ _ _ _ _ _ test body k j q fs arms t₁ t₂ t₃ t b b' o held walked ht hb arm next, free => by
    have hnext : Tracks plan marks first final (nodesNodes [.mk j .ifStmt q fs]) (nodesNodes [o]) (arms ++ t₃) :=
      (next.tracks (free_of_not_passesOver walked)).mono (List.subset_append_left _ _) (List.subset_append_left _ _)
    have hall : Tracks plan marks first final
        (Node.mk i .ifStmt p [.child test, .many body, .many [.mk j .ifStmt q fs]]).nodes
        (Node.mk i .ifStmt p [.child t, .many b', .many [o]]).nodes
        (.label (.took i 0) k :: (t₁ ++ t₂ ++ (arms ++ t₃))) :=
      tracks_entry (.ifStmt free (.link held walked ht hb arm next)) (fun _ hk ↦ .clause rfl rfl hb (hk ▸ arm))
        (((ht.tracks.child (by simp) (by simp)).append (hb.tracks.within hb (by simp) (arm.housed (by simp)))).append
          (hnext.many (by simp) (by simp)))
    exact hall.rearrange (fun tag htag ↦ by grind) (fun event key hlabel ↦ by grind)
  | .other _ _, _ => tracks_nil

theorem WovenBlock.tracks {doc : Bool} {body b : List Node} {t : List Tag} :
    WovenBlock plan marks first final doc body t b → BlockTracks plan marks first final body b t
  | .nil => fun _ _ hlabel ↦ by cases hlabel
  | .skip _ _ hrest => fun _ _ hlabel ↦
    hrest.tracks.extend (List.subset_cons_self _ _) (List.suffix_cons _ _) (List.subset_append_right _ _)
      ((List.mem_append.1 hlabel).resolve_left (not_mem_hushTags _))
  | .gap hrest => fun _ _ hlabel ↦
    hrest.tracks.extend (List.subset_cons_self _ _) (List.suffix_cons _ _) (List.Subset.refl _) hlabel
  | @WovenBlock.stmt _ _ _ _ _ i c p fs rest key t₁ t₂ s rest' b walked held hs hrest counted => fun event k hlabel ↦ by
    rcases List.mem_cons.1 hlabel with heq | hlabel
    · cases heq
      cases counted with
      | front fresh => exact .inl (.intro List.mem_cons_self hs fresh.le (List.prefix_append [_, _] _).isInfix)
    · rcases List.mem_append.1 hlabel with hlabel | hlabel
      · have hsuffix : nodesNodes (s :: rest') ⊆ nodesNodes b := nodesNodes_subset counted.suffix.subset
        exact .inr ((hs.tracks event k hlabel).mono (List.subset_append_left _ _)
          (List.Subset.trans (List.subset_append_left _ _) hsuffix) (by simp))
      · exact hrest.tracks.extend (List.subset_cons_self _ _) ((List.suffix_cons _ _).trans counted.suffix) (by simp)
          hlabel

theorem WovenOperands.tracks {keys : List (Option Key)} {vs ws : List Node} {t : List Tag} :
    WovenOperands plan marks first final keys vs t ws → Tracks plan marks first final (nodesNodes vs) (nodesNodes ws) t
  | .nil => tracks_nil
  | .cons hv arm hvs => (hv.tracks.wrapped arm).both hvs.tracks

theorem WovenCases.tracks {keys : List (Option Key)} {cs cs' : List Node} {t : List Tag} :
    WovenCases plan marks first final keys cs t cs' → Tracks plan marks first final (nodesNodes cs) (nodesNodes cs') t
  | .nil => tracks_nil
  | .cons _ hg hb arm hrest =>
    (((tracks_hush _).append (hg.tracks (by simp) (by simp))).append
      (hb.tracks.within hb (by simp) (arm.housed (by simp)))).both hrest.tracks

theorem WovenHandlers.tracks {hs hs' : List Node} {t : List Tag} :
    WovenHandlers plan marks first final hs t hs' → Tracks plan marks first final (nodesNodes hs) (nodesNodes hs') t
  | .other _ _ => tracks_nil
  | .cons _ ht hb hrest =>
    ((ht.tracks (by simp) (by simp)).append (hb.tracks.within hb (by simp) (housed_self (by simp)))).both hrest.tracks

theorem WovenFields.tracks {names : List String} {fs fs' gs gs' : List Field} {t : List Tag} {i : NodeId}
    {c : NodeClass} {p : Place} : WovenFields plan marks first final names fs t fs' → fs ⊆ gs → fs' ⊆ gs' →
      Tracks plan marks first final (Node.mk i c p gs).nodes (Node.mk i c p gs').nodes t
  | .done, _, _ => tracks_nil
  | .beyond _, _, _ => tracks_nil
  | .skipped _ _ hfs, source, target => hfs.tracks (List.cons_subset.1 source).2 (List.cons_subset.1 target).2
  | .walked _ hf hfs, source, target =>
    (hf.tracks (List.cons_subset.1 source).1 (List.cons_subset.1 target).1).append
      (hfs.tracks (List.cons_subset.1 source).2 (List.cons_subset.1 target).2)

theorem WovenField.tracks {f f' : Field} {fs fs' : List Field} {t : List Tag} {i : NodeId} {c : NodeClass} {p : Place} :
    WovenField plan marks first final f t f' → f ∈ fs → f' ∈ fs' →
      Tracks plan marks first final (Node.mk i c p fs).nodes (Node.mk i c p fs').nodes t
  | .child hn, source, target => hn.tracks.child source target
  | .block _ hns, source, target => hns.tracks.within hns source (housed_self target)
  | .all _ hns, source, target => hns.tracks.many source target
  | .atom _, _, _ => tracks_nil

theorem WovenAll.tracks {ns ns' : List Node} {t : List Tag} :
    WovenAll plan marks first final ns t ns' → Tracks plan marks first final (nodesNodes ns) (nodesNodes ns') t
  | .nil => tracks_nil
  | .cons hn hns => hn.tracks.both hns.tracks
end

end Woven

end Coverage.Pass
