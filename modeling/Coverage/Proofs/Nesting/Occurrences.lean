import Coverage.Proofs.Registration.Occurrence
import Coverage.Proofs.Syntax.Nodes

/-!
# Occurrences in a tree

Each occurrence is a node of the tree. Of two occurrences in a tree without repeated identities, the later one is found
below the earlier one, or their nodes are unrelated.
-/

namespace Coverage.Pass

open Syntax

variable {plan : Plan}

/-! ## Occurrences are nodes -/

section Nodes

variable {o : Occurrence}

mutual
/-- What occurs in a tree are nodes of it. -/
theorem mem_nodes_of_occurrences {opening alone : Bool} :
    ∀ n : Node, ∀ o ∈ occurrences plan opening alone n, o.node ∈ n.nodes
  | .gap, o, ho => by simp [occurrences] at ho
  | .mk i c p fs, o, ho => by
    rw [occurrences] at ho
    split at ho
    · cases ho
    · rcases List.mem_cons.1 ho with rfl | ho
      · exact self_mem_nodes Node.mk_ne_gap
      · obtain ⟨k, hk, hmem⟩ := mem_children_of_fieldsOccurrences c.fieldNames fs o ho
        exact mem_nodes_of_child hk hmem

theorem mem_children_of_fieldsOccurrences {c : NodeClass} : ∀ (names : List String) (fs : List Field),
    ∀ o ∈ fieldsOccurrences plan c names fs, ∃ k ∈ fs.flatMap Field.children, o.node ∈ k.nodes
  | [], _, o, ho => by simp [fieldsOccurrences] at ho
  | _ :: _, [], o, ho => by simp [fieldsOccurrences] at ho
  | name :: names, f :: fs, o, ho => by
    rw [fieldsOccurrences, List.mem_append] at ho
    rcases ho with ho | ho
    · split at ho
      · cases ho
      · obtain ⟨k, hk, hmem⟩ := mem_children_of_fieldOccurrences f o ho
        exact ⟨k, List.mem_append_left _ hk, hmem⟩
    · obtain ⟨k, hk, hmem⟩ := mem_children_of_fieldsOccurrences names fs o ho
      exact ⟨k, List.mem_append_right _ hk, hmem⟩

theorem mem_children_of_fieldOccurrences {opening clause : Bool} :
    ∀ f : Field, ∀ o ∈ fieldOccurrences plan opening clause f, ∃ k ∈ f.children, o.node ∈ k.nodes
  | .child n, o, ho => by
    rw [fieldOccurrences] at ho
    exact ⟨n, List.mem_singleton.2 rfl, mem_nodes_of_occurrences n o ho⟩
  | .many ns, o, ho => by
    rw [fieldOccurrences] at ho
    exact mem_nodes_of_nodesOccurrences ns o ho
  | .none, o, ho | .text _, o, ho | .number _, o, ho | .constant _, o, ho | .names _, o, ho => by
    simp [fieldOccurrences] at ho

theorem mem_nodes_of_nodesOccurrences {opening alone : Bool} :
    ∀ ns : List Node, ∀ o ∈ nodesOccurrences plan opening alone ns, ∃ k ∈ ns, o.node ∈ k.nodes
  | [], o, ho => by simp [nodesOccurrences] at ho
  | n :: ns, o, ho => by
    rw [nodesOccurrences, List.mem_append] at ho
    rcases ho with ho | ho
    · exact ⟨n, List.mem_cons_self, mem_nodes_of_occurrences n o ho⟩
    · obtain ⟨k, hk, hmem⟩ := mem_nodes_of_nodesOccurrences ns o ho
      exact ⟨k, List.mem_cons_of_mem _ hk, hmem⟩
end

/-- An occurrence below a node is below one of its children. -/
theorem mem_children_of_descendants {n : Node} (h : o ∈ descendants plan n) : ∃ k ∈ n.children, o.node ∈ k.nodes := by
  cases n with
  | gap => simp [descendants] at h
  | mk i c p fs => exact mem_children_of_fieldsOccurrences c.fieldNames fs o h

theorem mem_nodes_of_descendants {n : Node} (h : o ∈ descendants plan n) : o.node ∈ n.nodes := by
  obtain ⟨k, hk, hmem⟩ := mem_children_of_descendants h
  exact mem_nodes_of_child hk hmem

end Nodes

/-! ## Two occurrences -/

/-- The second occurrence is below the first, or neither is above the other. -/
def BelowOrBeside (plan : Plan) (o o' : Occurrence) : Prop :=
  o' ∈ descendants plan o.node ∨ o.node.Unrelated o'.node

theorem beside_of_disjoint {ns ms : List Node} (h : (ns.flatMap Node.ids).Disjoint (ms.flatMap Node.ids))
    {o o' : Occurrence} (ho : ∃ k ∈ ns, o.node ∈ k.nodes) (ho' : ∃ k ∈ ms, o'.node ∈ k.nodes) :
    BelowOrBeside plan o o' := by
  obtain ⟨k, hk, hmem⟩ := ho
  obtain ⟨k', hk', hmem'⟩ := ho'
  refine .inr fun j hj hj' ↦ ?_
  have hleft : j ∈ ns.flatMap Node.ids := List.mem_flatMap.2 ⟨k, hk, (ids_sublist hmem).subset hj⟩
  have hright : j ∈ ms.flatMap Node.ids := List.mem_flatMap.2 ⟨k', hk', (ids_sublist hmem').subset hj'⟩
  exact h hleft hright

mutual
/-- Of two occurrences, the later is below the first or beside it. -/
theorem pairwise_occurrences {opening alone : Bool} :
    ∀ n : Node, n.ids.Nodup → (occurrences plan opening alone n).Pairwise (BelowOrBeside plan)
  | .gap, _ => by simp [occurrences]
  | .mk i c p fs, h => by
    rw [ids_mk] at h
    rw [occurrences]
    split
    · exact .nil
    · exact List.pairwise_cons.2 ⟨fun o' ho' ↦ .inl ho',
        pairwise_fieldsOccurrences c.fieldNames fs (List.nodup_cons.1 h).2⟩

theorem pairwise_fieldsOccurrences {c : NodeClass} : ∀ (names : List String) (fs : List Field),
    ((fs.flatMap Field.children).flatMap Node.ids).Nodup →
      (fieldsOccurrences plan c names fs).Pairwise (BelowOrBeside plan)
  | [], _, _ => by simp [fieldsOccurrences]
  | _ :: _, [], _ => by simp [fieldsOccurrences]
  | name :: names, f :: fs, h => by
    rw [List.flatMap_cons, List.flatMap_append, List.nodup_append'] at h
    rw [fieldsOccurrences]
    split
    · exact pairwise_fieldsOccurrences names fs h.2.1
    · exact List.pairwise_append.2 ⟨pairwise_fieldOccurrences f h.1, pairwise_fieldsOccurrences names fs h.2.1,
        fun o ho o' ho' ↦ beside_of_disjoint h.2.2 (mem_children_of_fieldOccurrences f o ho)
          (mem_children_of_fieldsOccurrences names fs o' ho')⟩

theorem pairwise_fieldOccurrences {opening clause : Bool} : ∀ f : Field, (f.children.flatMap Node.ids).Nodup →
    (fieldOccurrences plan opening clause f).Pairwise (BelowOrBeside plan)
  | .child n, h => by
    rw [fieldOccurrences]
    exact pairwise_occurrences n (by simpa [Field.children] using h)
  | .many ns, h => by
    rw [fieldOccurrences]
    exact pairwise_nodesOccurrences ns h
  | .none, _ | .text _, _ | .number _, _ | .constant _, _ | .names _, _ => by simp [fieldOccurrences]

theorem pairwise_nodesOccurrences {opening alone : Bool} : ∀ ns : List Node, (ns.flatMap Node.ids).Nodup →
    (nodesOccurrences plan opening alone ns).Pairwise (BelowOrBeside plan)
  | [], _ => by simp [nodesOccurrences]
  | n :: ns, h => by
    rw [List.flatMap_cons, List.nodup_append'] at h
    have hdisjoint : ([n].flatMap Node.ids).Disjoint (ns.flatMap Node.ids) := by simpa using h.2.2
    rw [nodesOccurrences]
    refine List.pairwise_append.2 ⟨pairwise_occurrences n h.1, pairwise_nodesOccurrences ns h.2.1, fun o ho o' ho' ↦ ?_⟩
    exact beside_of_disjoint hdisjoint
      ⟨n, List.mem_singleton.2 rfl, mem_nodes_of_occurrences n o ho⟩ (mem_nodes_of_nodesOccurrences ns o' ho')
end

/-- Of two occurrences below a node, the later one is below the earlier one or beside it. -/
theorem pairwise_descendants {n : Node} (h : n.ids.Nodup) :
    (descendants plan n).Pairwise (BelowOrBeside plan) := by
  cases n with
  | gap => exact .nil
  | mk i c p fs =>
    rw [ids_mk] at h
    exact pairwise_fieldsOccurrences c.fieldNames fs (List.nodup_cons.1 h).2

end Coverage.Pass
