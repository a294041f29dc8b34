import Mathlib.Data.List.Nodup
import Mathlib.Data.List.Pairwise
import Coverage.Proofs.Syntax.Placed
import Coverage.Proofs.Syntax.Stocked

/-!
# The nodes of a tree

All nodes of a tree, as a list. What passes from a node to the nodes right below it holds of all nodes of a tree:
that places are complete, that lists are not empty, that fields are as the grammar has them. If no identity occurs
twice in a tree, two of its nodes have no node in common, or one is below the other.
-/

namespace Coverage.Syntax

def Node.id? : Node → Option NodeId
  | .gap => none
  | .mk i _ _ _ => some i

def Node.fields : Node → List Field
  | .gap => []
  | .mk _ _ _ fs => fs

def Field.children : Field → List Node
  | .child n => [n]
  | .many ns => ns
  | _ => []

def Node.children : Node → List Node
  | .gap => []
  | .mk _ _ _ fs => fs.flatMap Field.children

mutual
/-- A node and all nodes below it, in preorder. -/
def Node.nodes : Node → List Node
  | .gap => []
  | .mk i c p fs => .mk i c p fs :: fieldsNodes fs

def fieldsNodes : List Field → List Node
  | [] => []
  | .child n :: fs => n.nodes ++ fieldsNodes fs
  | .many ns :: fs => nodesNodes ns ++ fieldsNodes fs
  | _ :: fs => fieldsNodes fs

def nodesNodes : List Node → List Node
  | [] => []
  | n :: ns => n.nodes ++ nodesNodes ns
end

/-- Two nodes have no node in common: neither is above the other. -/
def Node.Unrelated (n m : Node) : Prop := ∀ i ∈ n.ids, i ∉ m.ids

instance (n m : Node) : Decidable (n.Unrelated m) := inferInstanceAs (Decidable (∀ i ∈ n.ids, i ∉ m.ids))

instance : Std.Symm Node.Unrelated := ⟨fun _ _ h i hm hn ↦ h i hn hm⟩

/-! ## Children -/

section Children

variable {i : NodeId} {c : NodeClass} {p : Place} {fs : List Field} {n m k : Node} {ns : List Node}

theorem nodesIds_eq_flatMap : nodesIds ns = ns.flatMap Node.ids := by
  induction ns with
  | nil => simp [nodesIds]
  | cons n ns ih => rw [nodesIds, ih, List.flatMap_cons]

theorem fieldsIds_eq_flatMap : fieldsIds fs = (fs.flatMap Field.children).flatMap Node.ids := by
  induction fs with
  | nil => simp [fieldsIds]
  | cons f fs ih =>
    rw [List.flatMap_cons, List.flatMap_append, ← ih]
    cases f with
    | child n => simp [fieldsIds, Field.children]
    | many ns => rw [fieldsIds, nodesIds_eq_flatMap, Field.children]
    | _ => simp [fieldsIds, Field.children]

theorem ids_mk : (Node.mk i c p fs).ids = i :: (Node.mk i c p fs).children.flatMap Node.ids := by
  rw [Node.ids, fieldsIds_eq_flatMap, Node.children]

theorem nodesNodes_eq_flatMap : nodesNodes ns = ns.flatMap Node.nodes := by
  induction ns with
  | nil => simp [nodesNodes]
  | cons n ns ih => rw [nodesNodes, ih, List.flatMap_cons]

theorem fieldsNodes_cons {f : Field} : fieldsNodes (f :: fs) = f.children.flatMap Node.nodes ++ fieldsNodes fs := by
  cases f with
  | child n => simp [fieldsNodes, Field.children]
  | many ns => rw [fieldsNodes, nodesNodes_eq_flatMap, Field.children]
  | _ => simp [fieldsNodes, Field.children]

theorem fieldsNodes_eq_flatMap : fieldsNodes fs = (fs.flatMap Field.children).flatMap Node.nodes := by
  induction fs with
  | nil => simp [fieldsNodes]
  | cons f fs ih => rw [fieldsNodes_cons, List.flatMap_cons, List.flatMap_append, ← ih]

theorem nodes_mk : (Node.mk i c p fs).nodes = .mk i c p fs :: (Node.mk i c p fs).children.flatMap Node.nodes := by
  rw [Node.nodes, fieldsNodes_eq_flatMap, Node.children]

theorem mem_children {f : Field} (hf : f ∈ fs) (hk : k ∈ f.children) : k ∈ (Node.mk i c p fs).children :=
  List.mem_flatMap.2 ⟨f, hf, hk⟩

theorem child_mem_children (h : .child k ∈ fs) : k ∈ (Node.mk i c p fs).children :=
  mem_children h (List.mem_singleton.2 rfl)

theorem many_subset_children (h : .many ns ∈ fs) : ns ⊆ (Node.mk i c p fs).children :=
  fun _ hk ↦ mem_children h hk

/-- A node below another one is below one of its children. -/
theorem mem_nodes (h : m ∈ n.nodes) : m = n ∨ ∃ k ∈ n.children, m ∈ k.nodes := by
  cases n with
  | gap => cases h
  | mk i c p fs =>
    rw [nodes_mk, List.mem_cons, List.mem_flatMap] at h
    exact h

theorem mem_nodes_of_child (hk : k ∈ n.children) (h : m ∈ k.nodes) : m ∈ n.nodes := by
  cases n with
  | gap => cases hk
  | mk i c p fs =>
    rw [nodes_mk, List.mem_cons, List.mem_flatMap]
    exact .inr ⟨k, hk, h⟩

theorem Node.mk_ne_gap {i : NodeId} {c : NodeClass} {p : Place} {fs : List Field} : Node.mk i c p fs ≠ .gap := by simp

theorem self_mem_nodes (h : n ≠ .gap) : n ∈ n.nodes := by
  cases n with
  | gap => exact absurd rfl h
  | mk i c p fs =>
    rw [nodes_mk]
    exact List.mem_cons_self

theorem mem_ids_of_child (hk : k ∈ n.children) {j : NodeId} (hj : j ∈ k.ids) : j ∈ n.ids := by
  cases n with
  | gap => cases hk
  | mk i c p fs =>
    rw [ids_mk, List.mem_cons, List.mem_flatMap]
    exact .inr ⟨k, hk, hj⟩

end Children

/-! ## Induction -/

section Induction

variable {P : Node → Prop}

mutual
/-- What holds of a node if it holds of its children holds of every node. -/
theorem Node.induction (gap : P .gap)
    (mk : ∀ i c p fs, (∀ m ∈ (Node.mk i c p fs).children, P m) → P (.mk i c p fs)) : ∀ n : Node, P n
  | .gap => gap
  | .mk i c p fs => mk i c p fs (fieldsInduction gap mk fs)

theorem fieldsInduction (gap : P .gap)
    (mk : ∀ i c p fs, (∀ m ∈ (Node.mk i c p fs).children, P m) → P (.mk i c p fs)) :
    ∀ fs : List Field, ∀ m ∈ fs.flatMap Field.children, P m
  | [] => by simp
  | .child n :: fs => by
    rw [List.flatMap_cons, List.forall_mem_append]
    exact ⟨List.forall_mem_singleton.2 (Node.induction gap mk n), fieldsInduction gap mk fs⟩
  | .many ns :: fs => by
    rw [List.flatMap_cons, List.forall_mem_append]
    exact ⟨nodesInduction gap mk ns, fieldsInduction gap mk fs⟩
  | .none :: fs | .text _ :: fs | .number _ :: fs | .constant _ :: fs | .names _ :: fs =>
    fieldsInduction gap mk fs

theorem nodesInduction (gap : P .gap)
    (mk : ∀ i c p fs, (∀ m ∈ (Node.mk i c p fs).children, P m) → P (.mk i c p fs)) :
    ∀ ns : List Node, ∀ m ∈ ns, P m
  | [] => by simp
  | n :: ns => List.forall_mem_cons.2 ⟨Node.induction gap mk n, nodesInduction gap mk ns⟩
end

/-- What passes from a node to its children holds of all nodes of a tree. -/
theorem forall_nodes (step : ∀ n m : Node, m ∈ n.children → P n → P m) (n : Node) (h : P n) : ∀ m ∈ n.nodes, P m := by
  induction n using Node.induction with
  | gap => simp [Node.nodes]
  | mk i c p fs ih =>
    intro m hm
    rcases mem_nodes hm with rfl | ⟨k, hk, hm⟩
    · exact h
    · exact ih k hk (step _ k hk h) m hm

end Induction

/-! ## One node below another -/

section Below

variable {n m k a b root : Node}

theorem nodes_trans (hm : m ∈ n.nodes) (hk : k ∈ m.nodes) : k ∈ n.nodes := by
  have hstep : ∀ a b : Node, b ∈ a.children → a.nodes ⊆ n.nodes → b.nodes ⊆ n.nodes :=
    fun a b hb ha x hx ↦ ha (mem_nodes_of_child hb hx)
  exact forall_nodes hstep n (List.Subset.refl _) m hm hk

theorem child_mem_nodes (hk : k ∈ n.children) (hgap : k ≠ .gap) : k ∈ n.nodes :=
  mem_nodes_of_child hk (self_mem_nodes hgap)

theorem gap_not_mem_nodes (n : Node) : Node.gap ∉ n.nodes := by
  induction n using Node.induction with
  | gap => simp [Node.nodes]
  | mk i c p fs ih =>
    intro h
    rcases mem_nodes h with heq | ⟨k, hk, h⟩
    · cases heq
    · exact ih k hk h

/-- Identities stand in the order of the tree. -/
theorem ids_sublist (h : m ∈ n.nodes) : m.ids.Sublist n.ids := by
  have hstep : ∀ a b : Node, b ∈ a.children → a.ids.Sublist n.ids → b.ids.Sublist n.ids := by
    intro a b hb ha
    cases a with
    | gap => cases hb
    | mk i c p fs =>
      rw [ids_mk] at ha
      have hpart : b.ids.Sublist ((Node.mk i c p fs).children.flatMap Node.ids) :=
        List.sublist_flatten_of_mem (List.mem_map_of_mem hb)
      exact (hpart.trans (List.sublist_cons_self ..)).trans ha
  exact forall_nodes hstep n (List.Sublist.refl _) m h

theorem ids_ne_nil (h : m ∈ n.nodes) : m.ids ≠ [] := by
  cases m with
  | gap => exact absurd h (gap_not_mem_nodes n)
  | mk i c p fs => simp [ids_mk]

theorem length_ids_lt (hk : k ∈ n.children) (hm : m ∈ k.nodes) : m.ids.length < n.ids.length := by
  cases n with
  | gap => cases hk
  | mk i c p fs =>
    have hpart : k.ids.Sublist ((Node.mk i c p fs).children.flatMap Node.ids) :=
      List.sublist_flatten_of_mem (List.mem_map_of_mem hk)
    have hle := ((ids_sublist hm).trans hpart).length_le
    rw [ids_mk, List.length_cons]
    omega

/-- Of two nodes, at most one is below the other. -/
theorem nodes_antisymm (h : m ∈ n.nodes) (h' : n ∈ m.nodes) : m = n := by
  rcases mem_nodes h with heq | ⟨k, hk, hm⟩
  · exact heq
  · have hlt := length_ids_lt hk hm
    have hle := (ids_sublist h').length_le
    omega

theorem Unrelated.mono (h : n.Unrelated m) (ha : a ∈ n.nodes) (hb : b ∈ m.nodes) : a.Unrelated b :=
  fun i hi hj ↦ h i ((ids_sublist ha).subset hi) ((ids_sublist hb).subset hj)

/-- Nodes that have a node in common are related. -/
theorem not_unrelated (hn : a ∈ n.nodes) (hm : a ∈ m.nodes) : ¬n.Unrelated m := by
  intro h
  obtain ⟨j, hj⟩ := List.exists_mem_of_ne_nil _ (ids_ne_nil hn)
  exact h j ((ids_sublist hn).subset hj) ((ids_sublist hm).subset hj)

/-! ### Distinct identities -/

/-- No child of a node is below another one. -/
theorem pairwise_children (hids : n.ids.Nodup) : n.children.Pairwise Node.Unrelated := by
  cases n with
  | gap => exact .nil
  | mk i c p fs =>
    rw [ids_mk] at hids
    refine (List.nodup_flatMap.1 (List.nodup_cons.1 hids).2).2.imp ?_
    intro a b hdisjoint j ha hb
    exact hdisjoint ha hb

/-- Two children that have an identity in common are one. -/
theorem eq_of_mem_ids (hids : n.ids.Nodup) (ha : a ∈ n.children) (hb : b ∈ n.children) {j : NodeId} (hja : j ∈ a.ids)
    (hjb : j ∈ b.ids) : a = b := by
  by_contra hne
  exact (pairwise_children hids).forall ha hb hne j hja hjb

/-- A child is below no node but its parent and those above. -/
theorem eq_of_child_mem (hids : n.ids.Nodup) (ha : a ∈ n.children) (hk : k ∈ n.children) (hm : m ∈ k.nodes)
    (h : a ∈ m.nodes) : m = a := by
  obtain ⟨j, hj⟩ := List.exists_mem_of_ne_nil _ (ids_ne_nil h)
  have hjk : j ∈ k.ids := (ids_sublist (nodes_trans hm h)).subset hj
  obtain rfl := eq_of_mem_ids hids ha hk hj hjk
  exact nodes_antisymm hm h

/-- Two nodes of a tree are unrelated, or one is below the other. -/
theorem related_or_unrelated (hids : root.ids.Nodup) (ha : a ∈ root.nodes) (hb : b ∈ root.nodes) :
    a.Unrelated b ∨ a ∈ b.nodes ∨ b ∈ a.nodes := by
  induction root using Node.induction with
  | gap => cases ha
  | mk i c p fs ih =>
    rcases mem_nodes ha with rfl | ⟨k, hk, hak⟩
    · exact .inr (.inr hb)
    rcases mem_nodes hb with rfl | ⟨k', hk', hbk⟩
    · exact .inr (.inl ha)
    by_cases heq : k = k'
    · subst heq
      have hpart : k.ids.Nodup := hids.sublist (ids_sublist (child_mem_nodes hk (by rintro rfl; cases hak)))
      exact ih k hk hpart hak hbk
    · exact .inl (Unrelated.mono ((pairwise_children hids).forall hk hk' heq) hak hbk)

end Below

/-! ## What holds of all nodes of a tree -/

section Trees

variable {full : Bool} {cat : Category} {f : Field} {fs : List Field} {n m k tree : Node} {ns : List Node}

theorem placed_of_mem (h : nodesPlaced ns = true) (hn : n ∈ ns) : n.placed = true := by
  induction ns with
  | nil => cases hn
  | cons m ns ih =>
    rw [nodesPlaced_cons] at h
    rcases List.mem_cons.1 hn with rfl | hn
    · exact h.1
    · exact ih h.2 hn

theorem placed_of_mem_children (h : fieldsPlaced fs = true) (hn : n ∈ fs.flatMap Field.children) :
    n.placed = true := by
  induction fs with
  | nil => cases hn
  | cons f fs ih =>
    rw [fieldsPlaced_cons] at h
    rw [List.flatMap_cons, List.mem_append] at hn
    rcases hn with hn | hn
    · cases f with
      | child m =>
        obtain rfl := List.mem_singleton.1 hn
        exact placed_child ▸ h.1
      | many ns => exact placed_of_mem (placed_many ▸ h.1) hn
      | _ => cases hn
    · exact ih h.2 hn

theorem placed_of_mem_nodes (h : tree.placed = true) : ∀ n ∈ tree.nodes, n.placed = true := by
  refine forall_nodes (fun n m hm hn ↦ ?_) tree h
  cases n with
  | gap => cases hm
  | mk i c p fs => exact placed_of_mem_children (placed_mk.1 hn).2 hm

theorem stocked_of_mem_children (h : fieldsStocked fs = true) (hn : n ∈ fs.flatMap Field.children) :
    n.stocked = true := by
  induction fs with
  | nil => cases hn
  | cons f fs ih =>
    rw [fieldsStocked_cons] at h
    rw [List.flatMap_cons, List.mem_append] at hn
    rcases hn with hn | hn
    · cases f with
      | child m =>
        obtain rfl := List.mem_singleton.1 hn
        exact stocked_child.1 h.1
      | many ns => exact stocked_of_mem (stocked_many.1 h.1) hn
      | _ => cases hn
    · exact ih h.2 hn

theorem stocked_of_mem_nodes (h : tree.stocked = true) : ∀ n ∈ tree.nodes, n.stocked = true := by
  refine forall_nodes (fun n m hm hn ↦ ?_) tree h
  cases n with
  | gap => cases hm
  | mk i c p fs => exact stocked_of_mem_children (stocked_mk.1 hn).2 hm

theorem isA_of_mem_are {gaps : Bool} (h : nodesAre full gaps cat ns = true) (hn : n ∈ ns) :
    n = .gap ∨ n.isA full cat = true := by
  induction ns with
  | nil => cases hn
  | cons m ns ih =>
    obtain ⟨hm, hns⟩ := nodesAre_cons.1 h
    rcases List.mem_cons.1 hn with rfl | hn
    · rcases hm with hm | ⟨-, rfl⟩
      · exact .inr hm
      · exact .inl rfl
    · exact ih hns hn

/-- The nodes in a field are of the category that the grammar says. -/
theorem isA_of_mem_field {content : Content} (h : f.fits full content = true) (hn : n ∈ f.children) :
    n = .gap ∨ ∃ cat, content.category? = some cat ∧ n.isA full cat = true := by
  cases f with
  | child m =>
    obtain rfl := List.mem_singleton.1 hn
    cases content with
    | one cat | optional cat => exact .inr ⟨cat, rfl, by simpa [Field.fits] using h⟩
    | _ => simp [Field.fits] at h
  | many ns =>
    cases content with
    | atom =>
      obtain rfl : ns = [] := by simpa [Field.fits] using h
      cases hn
    | list cat nonempty =>
      obtain ⟨_, heq, -, hns⟩ := fits_list.1 h
      cases heq
      exact (isA_of_mem_are hns hn).imp_right fun hn ↦ ⟨cat, rfl, hn⟩
    | gaps cat =>
      obtain ⟨_, heq, hns⟩ := fits_gaps.1 h
      cases heq
      exact (isA_of_mem_are hns hn).imp_right fun hn ↦ ⟨cat, rfl, hn⟩
    | _ => simp [Field.fits] at h
  | _ => cases hn

theorem isA_of_mem_fields {contents : List Content} (h : fieldsFit full contents fs = true)
    (hn : n ∈ fs.flatMap Field.children) :
    n = .gap ∨ ∃ content ∈ contents, ∃ cat, content.category? = some cat ∧ n.isA full cat = true := by
  induction contents generalizing fs with
  | nil =>
    obtain rfl := fieldsFit_nil.1 h
    cases hn
  | cons content contents ih =>
    obtain ⟨f, rest, rfl, hf, hrest⟩ := fieldsFit_cons.1 h
    rw [List.flatMap_cons, List.mem_append] at hn
    rcases hn with hn | hn
    · exact (isA_of_mem_field hf hn).imp_right fun hn ↦ ⟨content, List.mem_cons_self, hn⟩
    · refine (ih hrest hn).imp_right ?_
      rintro ⟨content', hmem, hn⟩
      exact ⟨content', List.mem_cons_of_mem _ hmem, hn⟩

/-- All nodes of a tree of the grammar are of some category. -/
theorem isA_of_mem_nodes (h : tree.isA full cat = true) : ∀ n ∈ tree.nodes, ∃ cat, n.isA full cat = true := by
  have hall : ∀ n ∈ tree.nodes, n = .gap ∨ ∃ cat, n.isA full cat = true := by
    refine forall_nodes (fun n m hm hn ↦ ?_) tree (.inr ⟨cat, h⟩)
    cases n with
    | gap => cases hm
    | mk i c p fs =>
      obtain ⟨cat, hn⟩ := hn.resolve_left nofun
      refine (isA_of_mem_fields (isA_mk.1 hn).2 hm).imp_right ?_
      rintro ⟨_, -, cat', -, hm⟩
      exact ⟨cat', hm⟩
  intro n hn
  exact (hall n hn).resolve_left (by rintro rfl; exact gap_not_mem_nodes tree hn)

/-- Categories of nodes that statements can stand below. -/
def Category.holdsStatements : Category → Bool
  | .root | .statement | .handler | .case => true
  | _ => false

/-- No field of a node that statements do not stand below holds one that they do. -/
theorem holdsStatements_contents (c : NodeClass) : c.category.holdsStatements = true ∨
    ∀ content ∈ c.contents, content.category?.all (fun cat ↦ !cat.holdsStatements) = true := by
  cases c with
  | plain c => cases c <;> decide
  | functionDef async | forLoop async | tryStmt star => exact .inl rfl
  | _ => decide

/-- Categories without statements have none at any depth. -/
theorem not_isStatement_of_mem_nodes (h : tree.isA full cat = true) (hcat : cat.holdsStatements = false) :
    ∀ n ∈ tree.nodes, n.isStatement = false := by
  have hall : ∀ n ∈ tree.nodes, n = .gap ∨ ∃ cat, n.isA full cat = true ∧ cat.holdsStatements = false := by
    refine forall_nodes (fun n m hm hn ↦ ?_) tree (.inr ⟨cat, h, hcat⟩)
    cases n with
    | gap => cases hm
    | mk i c p fs =>
      obtain ⟨cat, hn, hcat⟩ := hn.resolve_left nofun
      obtain ⟨rfl, hfs⟩ := isA_mk.1 hn
      refine (isA_of_mem_fields hfs hm).imp_right ?_
      rintro ⟨content, hcontent, cat', hcat', hm⟩
      have hother := (holdsStatements_contents c).resolve_left (by simp [hcat]) content hcontent
      exact ⟨cat', hm, by simpa [hcat'] using hother⟩
  intro n hn
  rcases hall n hn with rfl | ⟨cat, hn, hcat⟩
  · rfl
  · exact not_isStatement_of_isA hn (by rintro rfl; cases hcat)

end Trees

end Coverage.Syntax
