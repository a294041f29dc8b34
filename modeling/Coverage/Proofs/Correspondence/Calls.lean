import Coverage.Proofs.Pass.Walk
import Coverage.Proofs.Syntax.Places

/-!
# The calls of a woven tree

The injected calls of a tree are its calls with fresh identities. In a woven tree each of them counts keys
for the file of the pass, and together they count the keys of the tags, each as often as it stands there.
-/

namespace Coverage.Syntax

/-- A call of a method of the counters. -/
structure Call where
  receiver : String
  method : String
  file : String
  keys : List Key
  deriving DecidableEq, Repr

/-- The text that a constant holds. -/
def stringOf? : Node → Option String
  | .mk _ (.plain .constant) _ [.constant (.str s), _] => some s
  | _ => none

/-- Reads a call of the form `receiver.method("file", "key", ..)`. -/
def readCall? : Node → Option Call
  | .mk _ (.plain .call) _
      [.child (.mk _ (.plain .attr) _ [.child (.mk _ (.plain .name) _ [.text receiver, _]), .text method, _]),
        .many args, .many []] =>
    match args.mapM stringOf? with
    | some (file :: keys) => some ⟨receiver, method, file, keys⟩
    | _ => none
  | _ => none

mutual
/-- What the calls say whose identities start at `first`; `none` stands for a call that cannot be read. -/
def Node.calls (first : NodeId) : Node → List (Option Call)
  | .gap => []
  | .mk i c p fs =>
    (if first ≤ i ∧ c = .plain .call then [readCall? (.mk i c p fs)] else []) ++ fieldsCalls first fs

def Field.calls (first : NodeId) : Field → List (Option Call)
  | .child n => n.calls first
  | .many ns => nodesCalls first ns
  | _ => []

def fieldsCalls (first : NodeId) : List Field → List (Option Call)
  | [] => []
  | f :: fs => f.calls first ++ fieldsCalls first fs

def nodesCalls (first : NodeId) : List Node → List (Option Call)
  | [] => []
  | n :: ns => n.calls first ++ nodesCalls first ns
end

end Coverage.Syntax

namespace Coverage.Pass

open Syntax Program

variable {keys keys' : List Key} {ns : List Node} {key : Option Key}

/-- The call is one that a pass injects. -/
def ProbeCall (plan : Plan) (c : Call) : Prop :=
  c.receiver = plan.globalName ∧ c.file = plan.filename ∧
    (c.method = "hit" ∧ c.keys.length = 1 ∨ c.method = "guard" ∧ c.keys.length = 2)

def countedKeys (calls : List (Option Call)) : List Key := calls.flatMap fun c ↦ (c.map (·.keys)).getD []

/-- Every call is one that a pass injects, and they count the given keys. -/
structure Reports (plan : Plan) (calls : List (Option Call)) (keys : List Key) : Prop where
  proper : ∀ c ∈ calls, ∃ call, c = some call ∧ ProbeCall plan call
  counts : ∀ k, (countedKeys calls).count k = keys.count k

namespace Reports

variable {plan : Plan} {calls calls' : List (Option Call)} {keys keys' : List Key}

theorem nil : Reports plan [] [] := ⟨by simp, by simp [countedKeys]⟩

/-- The calls of two parts report their keys one after the other. -/
theorem append (h : Reports plan calls keys) (h' : Reports plan calls' keys') :
    Reports plan (calls ++ calls') (keys ++ keys') where
  proper c hc := by
    rcases List.mem_append.1 hc with hc | hc
    · exact h.proper c hc
    · exact h'.proper c hc
  counts k := by
    have hleft := h.counts k
    have hright := h'.counts k
    simp only [countedKeys, List.flatMap_append, List.count_append] at hleft hright ⊢
    omega

/-- Calls may stand between others. -/
theorem insert {between : List (Option Call)} (h : Reports plan (calls ++ calls') keys)
    (h' : Reports plan between keys') : Reports plan (calls ++ (between ++ calls')) (keys' ++ keys) where
  proper c hc := by
    rw [List.mem_append, List.mem_append] at hc
    rcases hc with hc | hc | hc
    · exact h.proper c (List.mem_append_left _ hc)
    · exact h'.proper c hc
    · exact h.proper c (List.mem_append_right _ hc)
  counts k := by
    have houter := h.counts k
    have hbetween := h'.counts k
    simp only [countedKeys, List.flatMap_append, List.count_append] at houter hbetween ⊢
    omega

/-- The order of the keys does not matter. -/
theorem conv (h : Reports plan calls keys) (same : ∀ k, keys.count k = keys'.count k) :
    Reports plan calls keys' :=
  ⟨h.proper, fun k ↦ (h.counts k).trans (same k)⟩

end Reports

@[simp]
theorem keysOf_nil : keysOf [] = [] := rfl

@[simp]
theorem keysOf_cons (tag : Tag) (tags : List Tag) : keysOf (tag :: tags) = tag.key?.toList ++ keysOf tags := by
  cases h : tag.key? <;> simp [keysOf, h]

@[simp]
theorem keysOf_append (a b : List Tag) : keysOf (a ++ b) = keysOf a ++ keysOf b := List.filterMap_append ..

@[simp]
theorem keysOf_hushTags (ids : List NodeId) : keysOf (hushTags ids) = [] := by
  induction ids with
  | nil => rfl
  | cons i ids ih =>
    change keysOf (.label (.started i) none :: .silent i :: hushTags ids) = []
    simp [ih]

@[simp]
theorem keysOf_armTags (i : NodeId) (a : Nat) (keys : List (Option Key)) :
    keysOf (armTags i a keys) = keys.flatMap Option.toList := by
  induction keys generalizing a with
  | nil => rfl
  | cons key keys ih => simp [armTags, ih]

/-! ## Trees whose places get filled -/

section Counts

variable (plan : Plan) (first : NodeId)

/-- However its places are filled, the calls in the tree count the given keys. -/
def Counts (n : Node) (keys : List Key) : Prop :=
  ∀ outer, Reports plan ((n.fillPlaces outer).calls first) keys

def CountsField (f : Field) (keys : List Key) : Prop :=
  ∀ outer, Reports plan ((f.fillPlaces outer).calls first) keys

def CountsFields (fs : List Field) (keys : List Key) : Prop :=
  ∀ outer, Reports plan (fieldsCalls first (fillFields outer fs)) keys

def CountsAll (ns : List Node) (keys : List Key) : Prop :=
  ∀ outer, Reports plan (nodesCalls first (fillNodes outer ns)) keys

end Counts

variable {plan : Plan} {first : NodeId}

theorem counts_gap : Counts plan first .gap [] := fun _ ↦ by
  rw [Node.fillPlaces_gap, Node.calls]
  exact .nil

/-- A node that is not an injected call. -/
theorem counts_mk {i : NodeId} {c : NodeClass} {p : Place} {fs : List Field}
    (h : ¬(first ≤ i ∧ c = .plain .call)) (hfs : CountsFields plan first fs keys) :
    Counts plan first (.mk i c p fs) keys := by
  intro outer
  rw [Node.fillPlaces_mk, Node.calls, if_neg h, List.nil_append]
  exact hfs _

theorem counts_old {i : NodeId} {c : NodeClass} {p : Place} {fs : List Field}
    (hi : i < first) (hfs : CountsFields plan first fs keys) : Counts plan first (.mk i c p fs) keys :=
  counts_mk (fun h ↦ Nat.not_le_of_lt hi h.1) hfs

theorem countsField_child {n : Node} (h : Counts plan first n keys) : CountsField plan first (.child n) keys := h

theorem countsField_many (h : CountsAll plan first ns keys) : CountsField plan first (.many ns) keys := h

theorem countsField_atom {f : Field} (h : isAtom f = true) : CountsField plan first f [] := by
  cases f with
  | child n => cases h
  | many ns => cases h
  | _ => exact fun _ ↦ .nil

theorem countsFields_nil : CountsFields plan first [] [] := fun _ ↦ by
  rw [fillFields_nil, fieldsCalls]
  exact .nil

theorem countsFields_cons {f : Field} {fs : List Field}
    (hf : CountsField plan first f keys) (hfs : CountsFields plan first fs keys') :
    CountsFields plan first (f :: fs) (keys ++ keys') := by
  intro outer
  rw [fillFields_cons, fieldsCalls]
  exact (hf outer).append (hfs outer)

theorem countsAll_nil : CountsAll plan first [] [] := fun _ ↦ by
  rw [fillNodes_nil, nodesCalls]
  exact .nil

theorem countsAll_cons {n : Node} (hn : Counts plan first n keys) (hns : CountsAll plan first ns keys') :
    CountsAll plan first (n :: ns) (keys ++ keys') := by
  intro outer
  rw [fillNodes_cons, nodesCalls]
  exact (hn outer).append (hns outer)

theorem countsAll_append {ms : List Node} (hns : CountsAll plan first ns keys) (hms : CountsAll plan first ms keys') :
    CountsAll plan first (ns ++ ms) (keys ++ keys') := by
  have hcalls : ∀ ns ms : List Node, nodesCalls first (ns ++ ms) = nodesCalls first ns ++ nodesCalls first ms := by
    intro ns ms
    induction ns with
    | nil => simp [nodesCalls]
    | cons n ns ih => simp [nodesCalls, ih]
  intro outer
  rw [fillNodes_eq_map, List.map_append, hcalls, ← fillNodes_eq_map, ← fillNodes_eq_map]
  exact (hns outer).append (hms outer)

theorem Counts.conv {n : Node} (h : Counts plan first n keys)
    (same : ∀ k, keys.count k = keys'.count k) : Counts plan first n keys' := fun outer ↦ (h outer).conv same

theorem CountsAll.conv (h : CountsAll plan first ns keys)
    (same : ∀ k, keys.count k = keys'.count k) : CountsAll plan first ns keys' := fun outer ↦ (h outer).conv same

mutual
/-- Nothing in an old tree is injected. -/
theorem counts_before : ∀ n : Node, Before first n.ids → Counts plan first n []
  | .gap, _ => counts_gap
  | .mk i c p fs, h => by
    rw [Node.ids, before_cons] at h
    exact counts_old h.1 (countsFields_before fs h.2)

theorem countsField_before : ∀ f : Field, Before first f.ids → CountsField plan first f []
  | .child n, h => countsField_child (counts_before n (by simpa using h))
  | .many ns, h => countsField_many (countsAll_before ns (by simpa using h))
  | .none, _ | .text _, _ | .number _, _ | .constant _, _ | .names _, _ => countsField_atom rfl

theorem countsFields_before : ∀ fs : List Field, Before first (fieldsIds fs) → CountsFields plan first fs []
  | [], _ => countsFields_nil
  | f :: fs, h => by
    rw [fieldsIds_cons, before_append] at h
    exact countsFields_cons (countsField_before f h.1) (countsFields_before fs h.2)

theorem countsAll_before : ∀ ns : List Node, Before first (nodesIds ns) → CountsAll plan first ns []
  | [], _ => countsAll_nil
  | n :: ns, h => by
    rw [nodesIds, before_append] at h
    exact countsAll_cons (counts_before n h.1) (countsAll_before ns h.2)
end

/-! ## Probes -/

section Probes

variable {j : NodeId} (fresh : first ≤ j)

include fresh

theorem counts_hit (key : Key) (place : Place) : Counts plan first (Probe.call plan "hit" [key] place j) [key] := by
  intro outer
  have hcalls : ((Probe.call plan "hit" [key] place j).fillPlaces outer).calls first =
      [some ⟨plan.globalName, "hit", plan.filename, [key]⟩] := by
    simp [Probe.call, Probe.arguments, Probe.stringConstant, Probe.load, Field.fillPlaces, Node.calls,
      fieldsCalls, Field.calls, nodesCalls, readCall?, stringOf?, fresh]
  rw [hcalls]
  exact ⟨by simp [ProbeCall], by simp [countedKeys]⟩

theorem counts_guardCall (ok error : Key) (place : Place) :
    Counts plan first (Probe.call plan "guard" [ok, error] place j) [ok, error] := by
  intro outer
  have hcalls : ((Probe.call plan "guard" [ok, error] place j).fillPlaces outer).calls first =
      [some ⟨plan.globalName, "guard", plan.filename, [ok, error]⟩] := by
    simp [Probe.call, Probe.arguments, Probe.stringConstant, Probe.load, Field.fillPlaces, Node.calls,
      fieldsCalls, Field.calls, nodesCalls, readCall?, stringOf?, fresh]
  rw [hcalls]
  exact ⟨by simp [ProbeCall], by simp [countedKeys]⟩

theorem counts_counter (key : Key) (place : Place) : Counts plan first (Probe.counter plan key place j) [key] :=
  counts_mk (by simp) (countsFields_cons
    (countsField_child (counts_hit (Nat.le_succ_of_le fresh) key place)) countsFields_nil)

end Probes

theorem Counted.counts {final : Marks} {place : Place} {b b' : List Node}
    (h : Counted plan first final key place b b') (hb : CountsAll plan first b keys) :
    CountsAll plan first b' (key.toList ++ keys) := by
  cases h with
  | bare => exact hb
  | front fresh => exact countsAll_cons (counts_counter fresh.le _ _) hb

theorem Entered.counts {final : Marks} {doc : Bool} {b b' : List Node}
    (h : Entered plan first final key doc b b') (hb : CountsAll plan first b keys) :
    CountsAll plan first b' (key.toList ++ keys) := by
  cases h with
  | bare => exact hb
  | front fresh => exact countsAll_cons (counts_counter fresh.le _ _) hb
  | behind fresh =>
    intro outer
    have hb := hb outer
    simp only [fillNodes_cons, nodesCalls] at hb ⊢
    exact hb.insert (counts_counter fresh.le _ _ outer)
  | last fresh =>
    intro outer
    have hb := hb outer
    simp only [fillNodes_cons, fillNodes_nil, nodesCalls] at hb ⊢
    exact hb.insert (counts_counter fresh.le _ _ outer)

theorem Wrapped.counts {final : Marks} {e e' : Node} (h : Wrapped plan first final key e e')
    (he : Counts plan first e keys) : Counts plan first e' (key.toList ++ keys) := by
  cases h with
  | bare => exact he
  | @wrapped k _ j fresh =>
    have hor : Counts plan first (.mk (j + 1) (.plain .or) {} []) [] := counts_mk (by simp) countsFields_nil
    have hvalues := countsAll_cons (counts_hit (Nat.le_add_right_of_le fresh.le : first ≤ j + 2) k e.place)
      (countsAll_cons he countsAll_nil)
    have hfields := countsFields_cons (countsField_child hor)
      (countsFields_cons (countsField_many hvalues) countsFields_nil)
    refine (counts_mk (by simp) hfields).conv fun k' ↦ ?_
    simp

/-- A guard reports the keys of both arms. -/
theorem Guarded.counts {final : Marks} {k₀ k₁ : Option Key} {b b' : List Node}
    (h : Guarded plan first final k₀ k₁ b b') (hb : CountsAll plan first b keys) :
    CountsAll plan first b' (k₀.toList ++ (k₁.toList ++ keys)) := by
  cases h with
  | bare => exact hb
  | @guarded ok error s b j fresh =>
    have hitem : Counts plan first (.mk (j + 1) (.plain .withItem) {}
        [.child (Probe.call plan "guard" [ok, error] s.place (j + 2)), .none]) ([ok, error] ++ ([] ++ [])) :=
      counts_mk (by simp) (countsFields_cons
        (countsField_child (counts_guardCall (Nat.le_add_right_of_le fresh.le) ok error s.place))
        (countsFields_cons (countsField_atom rfl) countsFields_nil))
    have hnone : CountsField plan first .none [] := countsField_atom rfl
    have hfields := countsFields_cons (countsField_many (countsAll_cons hitem countsAll_nil))
      (countsFields_cons (countsField_many hb) (countsFields_cons hnone countsFields_nil))
    have hguard : Counts plan first (Probe.guard plan ok error s.place (s :: b) j) _ := counts_mk (by simp) hfields
    refine (countsAll_cons hguard countsAll_nil).conv fun k' ↦ ?_
    simp

/-- The case that is added reports one key. -/
theorem Completed.counts {final : Marks} {place : Place} {cs cs' : List Node}
    (h : Completed plan first final key place cs cs') (hcs : CountsAll plan first cs keys) :
    CountsAll plan first cs' (key.toList ++ keys) := by
  cases h with
  | bare => exact hcs
  | @fallback k _ _ j fresh =>
    have hpattern : Counts plan first (.mk (j + 1) (.plain .matchAs) place [.none, .none]) ([] ++ ([] ++ [])) :=
      counts_mk (by simp)
        (countsFields_cons (countsField_atom rfl) (countsFields_cons (countsField_atom rfl) countsFields_nil))
    have hcounter : Counts plan first (Probe.counter plan k place (j + 2)) [k] :=
      counts_counter (Nat.le_add_right_of_le fresh.le) k place
    have hnone : CountsField plan first .none [] := countsField_atom rfl
    have hfields := countsFields_cons (countsField_child hpattern) (countsFields_cons hnone
      (countsFields_cons (countsField_many (countsAll_cons hcounter countsAll_nil)) countsFields_nil))
    have hcase : Counts plan first (Probe.fallback plan k place j) _ := counts_mk (by simp) hfields
    refine (countsAll_append hcs (countsAll_cons hcase countsAll_nil)).conv fun k' ↦ ?_
    simp [List.count_cons]

/-! ## Woven trees -/

section Woven

variable {marks final : Marks}

mutual
/-- The calls in a woven tree report the keys of its tags. -/
theorem Woven.counts {n n' : Node} {t : List Tag} : Woven plan marks first final n t n' → Before first n.ids →
    Counts plan first n' (keysOf t)
  | .gap, _ => counts_gap
  | .marked _ _, old => by
    refine (counts_before _ old).conv fun k ↦ ?_
    simp
  | .module _ hb _, old => by
    simp only [Node.ids, fieldsIds_cons, Field.ids_many, before_cons, before_append] at old
    obtain ⟨hi, hbody, hignores, -⟩ := old
    refine (counts_old hi (countsFields_cons (countsField_many (hb.counts hbody))
      (countsFields_cons (countsField_before _ hignores) countsFields_nil))).conv fun k ↦ ?_
    simp
  | .classDef _ hds hbs hks hb _, old => by
    simp only [Node.ids, fieldsIds_cons, Field.ids_many, before_cons, before_append] at old
    obtain ⟨hi, hname, hbases, hkeywords, hbody, hdecorators, -⟩ := old
    refine (counts_old hi (countsFields_cons (countsField_before _ hname)
      (countsFields_cons (countsField_many (hbs.counts hbases))
      (countsFields_cons (countsField_many (hks.counts hkeywords))
      (countsFields_cons (countsField_many (hb.counts hbody))
      (countsFields_cons (countsField_many (hds.counts hdecorators)) countsFields_nil)))))).conv fun k ↦ ?_
    simp
    omega
  | .functionDef _ hds ha hb entry _, old => by
    simp only [Node.ids, fieldsIds_cons, Field.ids_child, Field.ids_many, before_cons, before_append] at old
    obtain ⟨hi, hname, hargs, hbody, hdecorators, hreturns, hcomment, -⟩ := old
    refine (counts_old hi (countsFields_cons (countsField_before _ hname)
      (countsFields_cons (countsField_child (ha.counts hargs))
      (countsFields_cons (countsField_many (entry.counts (hb.counts hbody)))
      (countsFields_cons (countsField_many (hds.counts hdecorators))
      (countsFields_cons (countsField_before _ hreturns)
      (countsFields_cons (countsField_before _ hcomment) countsFields_nil))))))).conv fun k ↦ ?_
    simp
    omega
  | .lambda _ ha hb entry, old => by
    simp only [Node.ids, fieldsIds_cons, Field.ids_child, before_cons, before_append] at old
    obtain ⟨hi, hargs, hbody, -⟩ := old
    refine (counts_old hi (countsFields_cons (countsField_child (ha.counts hargs))
      (countsFields_cons (countsField_child (entry.counts (hb.counts hbody))) countsFields_nil))).conv fun k ↦ ?_
    simp
    omega
  | .ifStmt _ chain, old => by
    refine (chain.counts old).conv fun k ↦ ?_
    simp
  | .ifExp _ ht hb ho arm₀ arm₁, old => by
    simp only [Node.ids, fieldsIds_cons, Field.ids_child, before_cons, before_append] at old
    obtain ⟨hi, htest, hbody, horelse, -⟩ := old
    refine (counts_old hi (countsFields_cons (countsField_child (ht.counts htest))
      (countsFields_cons (countsField_child (arm₀.counts (hb.counts hbody)))
      (countsFields_cons (countsField_child (arm₁.counts (ho.counts horelse))) countsFields_nil)))).conv fun k ↦ ?_
    simp
    omega
  | .boolOp _ hvs _, old => by
    simp only [Node.ids, fieldsIds_cons, Field.ids_many, before_cons, before_append] at old
    obtain ⟨hi, hop, hvalues, -⟩ := old
    refine (counts_old hi (countsFields_cons (countsField_before _ hop)
      (countsFields_cons (countsField_many (hvs.counts hvalues)) countsFields_nil))).conv fun k ↦ ?_
    simp
  | .matchStmt _ hs hcs rest _, old => by
    simp only [Node.ids, fieldsIds_cons, Field.ids_child, Field.ids_many, before_cons, before_append] at old
    obtain ⟨hi, hsubject, hcases, -⟩ := old
    refine (counts_old hi (countsFields_cons (countsField_child (hs.counts hsubject))
      (countsFields_cons (countsField_many (rest.counts (hcs.counts hcases))) countsFields_nil))).conv fun k ↦ ?_
    simp
    omega
  | .whileLoop _ ht hb arm₀ ho arm₁, old => by
    simp only [Node.ids, fieldsIds_cons, Field.ids_child, Field.ids_many, before_cons, before_append] at old
    obtain ⟨hi, htest, hbody, horelse, -⟩ := old
    refine (counts_old hi (countsFields_cons (countsField_child (ht.counts htest))
      (countsFields_cons (countsField_many (arm₀.counts (hb.counts hbody)))
      (countsFields_cons (countsField_many (arm₁.counts (ho.counts horelse))) countsFields_nil)))).conv fun k ↦ ?_
    simp
    omega
  | .forLoop _ ht hs hb arm₀ ho arm₁ _, old => by
    simp only [Node.ids, fieldsIds_cons, Field.ids_child, Field.ids_many, before_cons, before_append] at old
    obtain ⟨hi, htarget, hiter, hbody, horelse, hcomment, -⟩ := old
    refine (counts_old hi (countsFields_cons (countsField_child (ht.counts htarget))
      (countsFields_cons (countsField_child (hs.counts hiter))
      (countsFields_cons (countsField_many (arm₀.counts (hb.counts hbody)))
      (countsFields_cons (countsField_many (arm₁.counts (ho.counts horelse)))
      (countsFields_cons (countsField_before _ hcomment) countsFields_nil)))))).conv fun k ↦ ?_
    simp
    omega
  | .tryStmt _ hb hh ho hf arms, old => by
    simp only [Node.ids, fieldsIds_cons, Field.ids_many, before_cons, before_append] at old
    obtain ⟨hi, hbody, hhandlers, horelse, hfinal, -⟩ := old
    refine (counts_old hi (countsFields_cons (countsField_many (arms.counts (hb.counts hbody)))
      (countsFields_cons (countsField_many (hh.counts hhandlers))
      (countsFields_cons (countsField_many (ho.counts horelse))
      (countsFields_cons (countsField_many (hf.counts hfinal)) countsFields_nil))))).conv fun k ↦ ?_
    simp
  | .plain _ _ hfs, old => by
    rw [Node.ids, before_cons] at old
    exact counts_old old.1 (hfs.counts old.2)

theorem WovenChain.counts {i : NodeId} {p : Place} {arms t : List Tag} {fs : List Field} {n' : Node} :
    WovenChain plan marks first final i p arms fs t n' → Before first (i :: fieldsIds fs) →
      Counts plan first n' (keysOf arms ++ keysOf t)
  | .last _ ht hb arm₀ ho arm₁, old => by
    simp only [fieldsIds_cons, Field.ids_child, Field.ids_many, before_cons, before_append] at old
    obtain ⟨hi, htest, hbody, horelse, -⟩ := old
    refine (counts_old hi (countsFields_cons (countsField_child (ht.counts htest))
      (countsFields_cons (countsField_many (arm₀.counts (hb.counts hbody)))
      (countsFields_cons (countsField_many (arm₁.counts (ho.counts horelse))) countsFields_nil)))).conv fun k ↦ ?_
    simp
    omega
  | .link _ _ ht hb arm next, old => by
    simp only [fieldsIds_cons, Field.ids_child, Field.ids_many, nodesIds, before_cons, before_append] at old
    obtain ⟨hi, htest, hbody, ⟨hnext, -⟩, -⟩ := old
    refine (counts_old hi (countsFields_cons (countsField_child (ht.counts htest))
      (countsFields_cons (countsField_many (arm.counts (hb.counts hbody)))
      (countsFields_cons (countsField_many (countsAll_cons (next.counts hnext) countsAll_nil))
        countsFields_nil)))).conv fun k ↦ ?_
    simp
    omega
  | .other _ _, old => counts_before _ old

theorem WovenBlock.counts {doc : Bool} {body b : List Node} {t : List Tag} :
    WovenBlock plan marks first final doc body t b → Before first (nodesIds body) → CountsAll plan first b (keysOf t)
  | .nil, _ => countsAll_nil
  | .skip _ _ hrest, old => by
    rw [nodesIds, before_append] at old
    refine (countsAll_cons (counts_before _ old.1) (hrest.counts old.2)).conv fun k ↦ ?_
    simp
  | .gap hrest, old => by
    rw [nodesIds, before_append] at old
    exact countsAll_cons counts_gap (hrest.counts old.2)
  | .stmt _ _ hs hrest counted, old => by
    rw [nodesIds, before_append] at old
    refine (counted.counts (countsAll_cons (hs.counts old.1) (hrest.counts old.2))).conv fun k ↦ ?_
    simp

theorem WovenOperands.counts {keys : List (Option Key)} {vs ws : List Node} {t : List Tag} :
    WovenOperands plan marks first final keys vs t ws → Before first (nodesIds vs) →
      CountsAll plan first ws (keys.flatMap Option.toList ++ keysOf t)
  | .nil, _ => countsAll_nil
  | .cons hv arm hvs, old => by
    rw [nodesIds, before_append] at old
    refine (countsAll_cons (arm.counts (hv.counts old.1)) (hvs.counts old.2)).conv fun k ↦ ?_
    simp
    omega

theorem WovenCases.counts {keys : List (Option Key)} {cs cs' : List Node} {t : List Tag} :
    WovenCases plan marks first final keys cs t cs' → Before first (nodesIds cs) →
      CountsAll plan first cs' (keys.flatMap Option.toList ++ keysOf t)
  | .nil, _ => countsAll_nil
  | .cons _ hg hb arm hrest, old => by
    simp only [nodesIds, Node.ids, fieldsIds_cons, Field.ids_child, Field.ids_many, before_cons, before_append]
      at old
    obtain ⟨⟨hi, hpattern, hguard, hbody, -⟩, hold⟩ := old
    refine (countsAll_cons (counts_old hi (countsFields_cons (countsField_child (counts_before _ hpattern))
      (countsFields_cons (hg.counts hguard)
      (countsFields_cons (countsField_many (arm.counts (hb.counts hbody))) countsFields_nil))))
      (hrest.counts hold)).conv fun k ↦ ?_
    simp
    omega

theorem WovenHandlers.counts {hs hs' : List Node} {t : List Tag} :
    WovenHandlers plan marks first final hs t hs' → Before first (nodesIds hs) → CountsAll plan first hs' (keysOf t)
  | .other _ _, old => countsAll_before _ old
  | .cons _ ht hb hrest, old => by
    simp only [nodesIds, Node.ids, fieldsIds_cons, Field.ids_many, before_cons, before_append] at old
    obtain ⟨⟨hi, htype, hname, hbody, -⟩, hold⟩ := old
    refine (countsAll_cons (counts_old hi (countsFields_cons (ht.counts htype)
      (countsFields_cons (countsField_before _ hname)
      (countsFields_cons (countsField_many (hb.counts hbody)) countsFields_nil))))
      (hrest.counts hold)).conv fun k ↦ ?_
    simp

theorem WovenFields.counts {names : List String} {fs fs' : List Field} {t : List Tag} :
    WovenFields plan marks first final names fs t fs' → Before first (fieldsIds fs) →
      CountsFields plan first fs' (keysOf t)
  | .done, _ => countsFields_nil
  | .beyond _, old => countsFields_before _ old
  | .skipped _ _ hfs, old => by
    rw [fieldsIds_cons, before_append] at old
    exact countsFields_cons (countsField_before _ old.1) (hfs.counts old.2)
  | .walked _ hf hfs, old => by
    rw [fieldsIds_cons, before_append] at old
    rw [keysOf_append]
    exact countsFields_cons (hf.counts old.1) (hfs.counts old.2)

theorem WovenField.counts {f f' : Field} {t : List Tag} :
    WovenField plan marks first final f t f' → Before first f.ids → CountsField plan first f' (keysOf t)
  | .child hn, old => countsField_child (hn.counts (by simpa using old))
  | .block _ hns, old => countsField_many (hns.counts (by simpa using old))
  | .all _ hns, old => countsField_many (hns.counts (by simpa using old))
  | .atom h, _ => countsField_atom h

theorem WovenAll.counts {ns ns' : List Node} {t : List Tag} :
    WovenAll plan marks first final ns t ns' → Before first (nodesIds ns) → CountsAll plan first ns' (keysOf t)
  | .nil, _ => countsAll_nil
  | .cons hn hns, old => by
    rw [nodesIds, before_append] at old
    rw [keysOf_append]
    exact countsAll_cons (hn.counts old.1) (hns.counts old.2)
end

end Woven

end Coverage.Pass
