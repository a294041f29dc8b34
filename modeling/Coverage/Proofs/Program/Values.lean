import Coverage.Program.Operation
import Coverage.Proofs.OrderedMap
import Coverage.Proofs.Steps

/-!
# Where values come from

A program gets values out of objects and variables, and everything else that it gets is plain: it gives access to no
ledger. What holds of all values that are there, and of plain ones, holds of all that operations give.
-/

namespace Coverage.Program

def Value.ledger? : Value → Option LedgerId
  | .ledger l | .hit l | .guard l | .guardOf l _ _ _ => some l
  | _ => Option.none

def Object.parts : Object → List Value
  | .list items => items.toList
  | .tuple items => items.toList
  | .exception _ args => args
  | .function f => f.defaults

variable {P : Value → Prop}

/-! ## Objects -/

/-- Something holds of all values that objects hold. -/
def Heap.Holds (P : Value → Prop) (h : Heap) : Prop :=
  ∀ (r : Ref) (o : Object), h[r]? = some o → ∀ v ∈ o.parts, P v

namespace Heap.Holds

variable {h : Heap} {v : Value} {items : Array Value}

theorem list? (hh : h.Holds P) (hv : h.list? v = some items) : ∀ w ∈ items, P w := by
  unfold Heap.list? at hv
  split at hv
  next r =>
    split at hv
    next items' hr =>
      cases hv
      exact fun w hw ↦ hh r _ hr w (Array.mem_toList_iff.2 hw)
    next => cases hv
  next => cases hv

theorem tuple? (hh : h.Holds P) (hv : h.tuple? v = some items) : ∀ w ∈ items, P w := by
  unfold Heap.tuple? at hv
  split at hv
  next r =>
    split at hv
    next items' hr =>
      cases hv
      exact fun w hw ↦ hh r _ hr w (Array.mem_toList_iff.2 hw)
    next => cases hv
  next => cases hv

/-- The items of a list or a tuple. -/
theorem sequence? (hh : h.Holds P) (hv : (h.list? v).or (h.tuple? v) = some items) : ∀ w ∈ items, P w := by
  rcases Option.or_eq_some_iff.1 hv with hlist | ⟨-, htuple⟩
  · exact hh.list? hlist
  · exact hh.tuple? htuple

/-- What holds of all values in a heap holds of the items of a sequence. -/
theorem item? (hh : h.Holds P) (hconst : ∀ c, P (.const c)) {w : Value} {i : Nat} (hv : h.item? v i = some w) :
    P w := by
  unfold Heap.item? at hv
  split at hv
  next text =>
    obtain ⟨c, -, rfl⟩ := Option.map_eq_some_iff.1 hv
    exact hconst _
  next start stop step =>
    split at hv
    · cases hv
      exact hconst _
    · cases hv
  next =>
    obtain ⟨items, hitems, hw⟩ := Option.bind_eq_some_iff.1 hv
    exact hh.sequence? hitems w (Array.mem_of_getElem? hw)

theorem items? (hh : h.Holds P) (hconst : ∀ c, P (.const c)) (hv : h.items? v = some items) : ∀ w ∈ items, P w := by
  unfold Heap.items? at hv
  split at hv
  next text =>
    cases hv
    intro w hw
    obtain ⟨c, -, rfl⟩ := List.mem_map.1 (List.mem_toArray.1 hw)
    exact hconst _
  next start stop step =>
    cases hv
    intro w hw
    obtain ⟨i, -, rfl⟩ := List.mem_map.1 (List.mem_toArray.1 hw)
    exact hconst _
  next => exact hh.sequence? hv

end Heap.Holds

theorem mem_of_mem_repeatItems {items : Array Value} {n : Nat} {v : Value} (hv : v ∈ repeatItems items n) :
    v ∈ items := by
  obtain ⟨vs, hvs, hv⟩ := List.mem_flatten.1 (List.mem_toArray.1 hv)
  rw [List.eq_of_mem_replicate hvs] at hv
  exact Array.mem_toList_iff.1 hv

/-! ## Plain values -/

/-- No builtin gives access to a ledger. -/
theorem ledger?_of_builtin? {x : String} {v : Value} (h : builtin? x = some v) : v.ledger? = none := by
  unfold builtin? at h
  split at h
  next =>
    cases h
    rfl
  next =>
    cases h
    rfl
  next =>
    obtain ⟨c, -, rfl⟩ := Option.map_eq_some_iff.1 h
    rfl

/-- Ranges give no access to a ledger. -/
theorem ledger?_of_rangeOf {ns : List Int} {v : Value} (hv : rangeOf ns = .ok v) : v.ledger? = none := by
  unfold rangeOf at hv
  split at hv
  next =>
    cases hv
    rfl
  next =>
    cases hv
    rfl
  next =>
    split at hv
    next => cases hv
    next =>
      cases hv
      rfl
  next => cases hv

theorem ledger?_of_makeRange {h : Heap} {args : List Value} {v : Value} (hv : makeRange h args = .ok v) :
    v.ledger? = none := by
  unfold makeRange at hv
  split at hv
  next => cases hv
  next =>
    split at hv
    next => cases hv
    next =>
      obtain ⟨ns, -, hns⟩ := except_bind_eq_ok.1 hv
      exact ledger?_of_rangeOf hns

/-! ## Variables -/

/-- Something holds of the values of all variables. -/
def Namespace.Holds (P : Value → Prop) (ns : Namespace) : Prop := ∀ x v, ns.get? x = some v → P v

namespace Namespace.Holds

variable {ns : Namespace}

theorem empty : Namespace.Holds P {} := by
  intro x v hv
  rw [OrderedMap.get?_empty] at hv
  cases hv

theorem put (hns : ns.Holds P) {v : Value} (hv : P v) (x : String) : Namespace.Holds P (ns.put x v) := by
  intro y w hw
  rw [OrderedMap.get?_put] at hw
  split at hw
  · cases hw
    exact hv
  · exact hns y w hw

theorem erase (hns : ns.Holds P) (x : String) : Namespace.Holds P (ns.erase x) := by
  intro y w hw
  rw [OrderedMap.get?_erase] at hw
  split at hw
  · cases hw
  · exact hns y w hw

theorem ofList {pairs : List (String × Value)} (h : ∀ p ∈ pairs, P p.2) :
    Namespace.Holds P (OrderedMap.ofList pairs) := by
  have hfold (ns : Namespace) (hns : ns.Holds P) :
      Namespace.Holds P (pairs.foldl (fun m p ↦ m.put p.1 p.2) ns) := by
    induction pairs generalizing ns with
    | nil => exact hns
    | cons p rest ih =>
      rw [List.forall_mem_cons] at h
      exact ih h.2 _ (hns.put h.1 p.1)
  exact hfold {} empty

/-- The variables with which a call starts. -/
theorem frame {f : Closure} (hf : ∀ v ∈ f.defaults, P v) {args : List Value} (hargs : ∀ v ∈ args, P v)
    (hns : f.frame args = .ok ns) : ns.Holds P := by
  simp only [Closure.frame] at hns
  split at hns
  next => cases hns
  next =>
    split at hns
    next => cases hns
    next =>
      cases hns
      refine ofList fun p hp ↦ ?_
      rcases List.mem_append.1 (List.of_mem_zip hp).2 with hmem | hmem
      · exact hargs _ hmem
      · exact hf _ (List.mem_of_mem_drop hmem)

end Namespace.Holds

end Coverage.Program
