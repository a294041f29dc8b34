import Coverage.Pass.Visit
import Coverage.Proofs.Pass.Site
import Coverage.Proofs.Syntax.Places

/-!
# Renaming the nodes of a tree

A tree with other identities is the same tree for everything that does not look at identities. Injected code is built
from a first identity, so renaming it consecutively gives the code that is built from another one.
-/

namespace Coverage.Syntax

mutual
/-- The tree with `ρ i` in place of each identity `i`. -/
def Node.rename (ρ : NodeId → NodeId) : Node → Node
  | .gap => .gap
  | .mk i c p fs => .mk (ρ i) c p (renameFields ρ fs)

def Field.rename (ρ : NodeId → NodeId) : Field → Field
  | .child n => .child (n.rename ρ)
  | .many ns => .many (renameNodes ρ ns)
  | f => f

def renameFields (ρ : NodeId → NodeId) : List Field → List Field
  | [] => []
  | f :: fs => f.rename ρ :: renameFields ρ fs

def renameNodes (ρ : NodeId → NodeId) : List Node → List Node
  | [] => []
  | n :: ns => n.rename ρ :: renameNodes ρ ns
end

section Equations

variable {ρ : NodeId → NodeId}

attribute [local simp] Node.rename Field.rename renameFields renameNodes

@[simp]
theorem Node.rename_gap : Node.gap.rename ρ = .gap := by simp

@[simp]
theorem Node.rename_mk (i : NodeId) (c : NodeClass) (p : Place) (fs : List Field) :
    (Node.mk i c p fs).rename ρ = .mk (ρ i) c p (renameFields ρ fs) := by simp

@[simp]
theorem Field.rename_child (n : Node) : (Field.child n).rename ρ = .child (n.rename ρ) := by simp

@[simp]
theorem Field.rename_many (ns : List Node) : (Field.many ns).rename ρ = .many (renameNodes ρ ns) := by simp

@[simp]
theorem Field.rename_text (s : String) : (Field.text s).rename ρ = .text s := by simp

@[simp]
theorem Field.rename_none : Field.none.rename ρ = .none := by simp

@[simp]
theorem Field.rename_constant (c : Constant) : (Field.constant c).rename ρ = .constant c := by simp

@[simp]
theorem renameFields_nil : renameFields ρ [] = [] := by simp

@[simp]
theorem renameFields_cons (f : Field) (fs : List Field) :
    renameFields ρ (f :: fs) = f.rename ρ :: renameFields ρ fs := by simp

@[simp]
theorem renameNodes_nil : renameNodes ρ [] = [] := by simp

@[simp]
theorem renameNodes_cons (n : Node) (ns : List Node) :
    renameNodes ρ (n :: ns) = n.rename ρ :: renameNodes ρ ns := by simp

@[simp]
theorem renameNodes_append (ns ms : List Node) :
    renameNodes ρ (ns ++ ms) = renameNodes ρ ns ++ renameNodes ρ ms := by
  induction ns with
  | nil => simp
  | cons n ns ih => simp [ih]

theorem renameNodes_eq_map (ns : List Node) : renameNodes ρ ns = ns.map (Node.rename ρ) := by
  induction ns with
  | nil => simp
  | cons n ns ih => simp [ih]

@[simp]
theorem place_rename (n : Node) : (n.rename ρ).place = n.place := by
  cases n <;> simp [Node.place]

end Equations

variable (ρ : NodeId → NodeId)

mutual
theorem ids_rename : ∀ n : Node, (n.rename ρ).ids = n.ids.map ρ
  | .gap => by simp [Node.ids]
  | .mk i c p fs => by simp [Node.ids, ids_renameFields fs]

theorem ids_renameFields : ∀ fs : List Field, fieldsIds (renameFields ρ fs) = (fieldsIds fs).map ρ
  | [] => by simp [fieldsIds]
  | .child n :: fs => by simp [fieldsIds, ids_rename n, ids_renameFields fs]
  | .many ns :: fs => by simp [fieldsIds, ids_renameNodes ns, ids_renameFields fs]
  | .none :: fs | .text _ :: fs | .number _ :: fs | .constant _ :: fs | .names _ :: fs => by
    simp [fieldsIds, Field.rename, ids_renameFields fs]

theorem ids_renameNodes : ∀ ns : List Node, nodesIds (renameNodes ρ ns) = (nodesIds ns).map ρ
  | [] => by simp [nodesIds]
  | n :: ns => by simp [nodesIds, ids_rename n, ids_renameNodes ns]
end

mutual
/-- Renaming that keeps every identity of a tree keeps the tree. -/
theorem rename_eq_self : ∀ n : Node, (∀ i ∈ n.ids, ρ i = i) → n.rename ρ = n
  | .gap, _ => by simp
  | .mk i c p fs, h => by
    rw [Node.ids, List.forall_mem_cons] at h
    rw [Node.rename_mk, h.1, renameFields_eq_self fs h.2]

theorem Field.rename_eq_self : ∀ f : Field, (∀ i ∈ f.ids, ρ i = i) → f.rename ρ = f
  | .child n, h => by
    rw [Field.ids_child] at h
    rw [Field.rename_child, Syntax.rename_eq_self n h]
  | .many ns, h => by
    rw [Field.ids_many] at h
    rw [Field.rename_many, renameNodes_eq_self ns h]
  | .none, _ | .text _, _ | .number _, _ | .constant _, _ | .names _, _ => by rw [Field.rename] <;> simp

theorem renameFields_eq_self : ∀ fs : List Field, (∀ i ∈ fieldsIds fs, ρ i = i) → renameFields ρ fs = fs
  | [], _ => by simp
  | f :: fs, h => by
    rw [fieldsIds_cons, List.forall_mem_append] at h
    rw [renameFields_cons, f.rename_eq_self h.1, renameFields_eq_self fs h.2]

theorem renameNodes_eq_self : ∀ ns : List Node, (∀ i ∈ nodesIds ns, ρ i = i) → renameNodes ρ ns = ns
  | [], _ => by simp
  | n :: ns, h => by
    rw [nodesIds, List.forall_mem_append] at h
    rw [renameNodes_cons, rename_eq_self n h.1, renameNodes_eq_self ns h.2]
end

mutual
theorem rename_fillPlaces (outer : Place) : ∀ n : Node, (n.fillPlaces outer).rename ρ = (n.rename ρ).fillPlaces outer
  | .gap => by simp
  | .mk i c p fs => by simp [rename_fillFields _ fs]

theorem rename_fillFields (outer : Place) :
    ∀ fs : List Field, renameFields ρ (fillFields outer fs) = fillFields outer (renameFields ρ fs)
  | [] => by simp
  | .child n :: fs => by simp [rename_fillPlaces outer n, rename_fillFields outer fs]
  | .many ns :: fs => by simp [rename_fillNodes outer ns, rename_fillFields outer fs]
  | .none :: fs | .text _ :: fs | .number _ :: fs | .constant _ :: fs | .names _ :: fs => by
    simp [Field.rename, Field.fillPlaces, rename_fillFields outer fs]

theorem rename_fillNodes (outer : Place) :
    ∀ ns : List Node, renameNodes ρ (fillNodes outer ns) = fillNodes outer (renameNodes ρ ns)
  | [] => by simp
  | n :: ns => by simp [rename_fillPlaces outer n, rename_fillNodes outer ns]
end

end Coverage.Syntax

namespace Coverage.Probe

open Syntax

/-! ## Injected code -/

variable {ρ : NodeId → NodeId} {plan : Plan} {j j' : NodeId}

/-- Renames `size` consecutive identities from `j` on to consecutive ones from `j'` on. -/
def Carries (ρ : NodeId → NodeId) (size : Nat) (j j' : NodeId) : Prop := ∀ k < size, ρ (j + k) = j' + k

theorem Carries.drop {size : Nat} (h : Carries ρ size j j') (m : Nat) (hm : m ≤ size) :
    Carries ρ (size - m) (j + m) (j' + m) := by
  intro k hk
  rw [Nat.add_assoc, h (m + k) (by omega), Nat.add_assoc]

theorem rename_arguments (place : Place) (ss : List String) (h : Carries ρ ss.length j j') :
    renameNodes ρ (arguments place j ss) = arguments place j' ss := by
  induction ss generalizing j j' with
  | nil => simp [arguments]
  | cons s ss ih =>
    have hfirst : ρ j = j' := h 0 (Nat.zero_lt_succ _)
    have hrest : Carries ρ ss.length (j + 1) (j' + 1) := h.drop 1 (Nat.le_add_left ..)
    simp [arguments, stringConstant, hfirst, ih hrest]

/-- A call with renamed identities is the call made elsewhere. -/
theorem rename_call (method : String) (keys : List Key) (place : Place) (h : Carries ρ (callSize keys) j j') :
    (call plan method keys place j).rename ρ = call plan method keys place j' := by
  have hat (k : Fin 6) : ρ (j + k) = j' + k := h k (Nat.lt_add_right _ k.isLt)
  have hself : ρ j = j' := hat 0
  have harguments : renameNodes ρ (arguments place (j + 5) (plan.filename :: keys)) =
      arguments place (j' + 5) (plan.filename :: keys) := by
    refine rename_arguments place _ fun k hk ↦ ?_
    rw [Nat.add_assoc, h (5 + k) (by rw [List.length_cons] at hk; unfold callSize; omega), Nat.add_assoc]
  simp [call, load, hself, harguments, show ρ (j + 1) = j' + 1 from hat 1, show ρ (j + 2) = j' + 2 from hat 2,
    show ρ (j + 3) = j' + 3 from hat 3, show ρ (j + 4) = j' + 4 from hat 4]

theorem rename_counter (key : Key) (place : Place) (h : Carries ρ counterSize j j') :
    (counter plan key place j).rename ρ = counter plan key place j' := by
  have hself : ρ j = j' := h 0 (by decide)
  simp [counter, hself, rename_call "hit" [key] place (h.drop 1 (by decide))]

theorem rename_wrapper (key : Key) (e : Node) (h : Carries ρ wrapperSize j j') :
    (wrapper plan key e j).rename ρ = wrapper plan key (e.rename ρ) j' := by
  have hself : ρ j = j' := h 0 (by decide)
  simp [wrapper, hself, h 1 (by decide), rename_call "hit" [key] e.place (h.drop 2 (by decide))]

theorem rename_guard (ok error : Key) (place : Place) (body : List Node) (h : Carries ρ guardSize j j') :
    (guard plan ok error place body j).rename ρ = guard plan ok error place (renameNodes ρ body) j' := by
  have hself : ρ j = j' := h 0 (by decide)
  simp [guard, hself, h 1 (by decide), rename_call "guard" [ok, error] place (h.drop 2 (by decide))]

theorem rename_fallback (key : Key) (place : Place) (h : Carries ρ fallbackSize j j') :
    (fallback plan key place j).rename ρ = fallback plan key place j' := by
  have hself : ρ j = j' := h 0 (by decide)
  simp [fallback, hself, h 1 (by decide), rename_counter key place (h.drop 2 (by decide))]

end Coverage.Probe
