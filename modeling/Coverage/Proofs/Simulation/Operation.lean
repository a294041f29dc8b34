import Coverage.Proofs.Simulation.Machine

/-!
# Comparing operations

Operations on values end alike in matched states, and the program can hold what they give.
-/

namespace Coverage.Program.Comparison

variable {b : Comparison}

theorem keeps_truth (v : Value) : b.Keeps Any (truth v) := keeps_look fun _ _ hh ↦ by rw [hh.isTrue_eq]

/-! ## Equality and order -/

section Heaps

variable {h h' : Heap}

theorem AlikeHeaps.equal?_eq (hh : b.AlikeHeaps h h') (fuel : Nat) : equal? h' fuel = equal? h fuel := by
  induction fuel with
  | zero => rfl
  | succ fuel ih =>
    funext v w
    simp only [equal?, ih, hh.list?_eq, hh.tuple?_eq]

theorem AlikeHeaps.ordered_eq (hh : b.AlikeHeaps h h') (o : Order) : ordered h' o = ordered h o := by
  funext order lengths vs ws
  induction vs generalizing ws with
  | nil => rfl
  | cons v vs ih =>
    cases ws with
    | nil => rfl
    | cons w ws => simp only [ordered, ih, hh.equal?_eq, hh.size_eq]

theorem AlikeHeaps.order?_eq (hh : b.AlikeHeaps h h') (o : Order) (fuel : Nat) :
    order? h' o fuel = order? h o fuel := by
  induction fuel with
  | zero => rfl
  | succ fuel ih =>
    funext v w
    simp only [order?, ih, hh.ordered_eq, hh.list?_eq, hh.tuple?_eq, hh.typeName_eq]

end Heaps

theorem keeps_equal (v w : Value) : b.Keeps Any (equal v w) := by
  refine Keeps.andThen (keeps_look fun h h' hh ↦ ?_) fun r _ ↦ ?_
  · rw [hh.equal?_eq, hh.size_eq]
  · cases r with
    | some r => exact keeps_pure trivial
    | none => exact keeps_stuck

theorem keeps_identical (v w : Value) : b.Keeps Any (identical v w) := by
  refine Keeps.andThen (keeps_look fun h h' hh ↦ ?_) fun r _ ↦ ?_
  · unfold identical?
    rw [hh.tuple?_eq]
  · cases r with
    | some r => exact keeps_pure trivial
    | none => exact keeps_stuck

theorem keeps_compareBy (o : Order) (v w : Value) : b.Keeps Any (compareBy o v w) := by
  refine Keeps.andThen (keeps_look fun h h' hh ↦ ?_) fun r _ ↦ ?_
  · rw [hh.order?_eq, hh.size_eq]
  · cases r with
    | some r => exact keeps_orFail fun _ _ ↦ trivial
    | none => exact keeps_stuck

/-- An exception that names a type. -/
theorem keeps_failType {α : Type} {P : α → Prop} (v : Value) (p : String → Problem) :
    b.Keeps P (do fail (p (← look (·.typeName v)))) :=
  (keeps_look fun _ _ hh ↦ by rw [hh.typeName_eq]).andThen fun _ _ ↦ keeps_fail _

/-! ## Membership -/

theorem keeps_anyEqual (v : Value) : ∀ ws : List Value, b.Keeps Any (anyEqual v ws)
  | [] => keeps_pure trivial
  | w :: ws => (keeps_equal w v).andThen fun r _ ↦ by
    cases r with
    | true => exact keeps_pure trivial
    | false => exact keeps_anyEqual v ws

theorem keeps_contains (v container : Value) : b.Keeps Any (contains v container) := by
  unfold contains
  split
  next => exact keeps_stuck
  next t =>
    split
    next s => exact keeps_pure trivial
    next => exact keeps_failType v .notSubstring
  next =>
    refine Keeps.andThen (keeps_look fun h h' hh ↦ ?_) fun r _ ↦ ?_
    · rw [hh.items?_eq]
    · cases r with
      | some items => exact keeps_anyEqual v items.toList
      | none => exact keeps_failType container .notSearchable

theorem keeps_relation (r : Relation) (v w : Value) : b.Keeps Any (r.holds v w) := by
  cases r with
  | eq => exact keeps_equal v w
  | ne => exact (keeps_equal v w).andThen fun _ _ ↦ keeps_pure trivial
  | lt => exact keeps_compareBy .lt v w
  | le => exact keeps_compareBy .le v w
  | gt => exact keeps_compareBy .gt v w
  | ge => exact keeps_compareBy .ge v w
  | same => exact keeps_identical v w
  | notSame => exact (keeps_identical v w).andThen fun _ _ ↦ keeps_pure trivial
  | mem => exact keeps_contains v w
  | notMem => exact (keeps_contains v w).andThen fun _ _ ↦ keeps_pure trivial

/-! ## Arithmetic -/

theorem keeps_allocate_list {items : Array Value} (clean : ∀ v ∈ items, b.Clean v) :
    b.Keeps b.Clean (allocate (.list items)) :=
  keeps_allocate (.list clean)

theorem keeps_allocate_tuple {items : Array Value} (clean : ∀ v ∈ items, b.Clean v) :
    b.Keeps b.Clean (allocate (.tuple items)) :=
  keeps_allocate (.tuple clean)

theorem AlikeHeaps.notJoined_eq {h h' : Heap} (hh : b.AlikeHeaps h h') : notJoined h' = notJoined h := by
  unfold notJoined
  rw [hh.list?_eq, hh.tuple?_eq, hh.typeName_eq]

theorem keeps_concatenate (symbol : String) (v w : Value) : b.Keeps b.Clean (concatenate symbol v w) := by
  refine keeps_get (fun s s' hm ↦ ?_) fun s s' hm ↦ ?_
  · simp only [hm.heap.list?_eq, hm.heap.tuple?_eq, hm.heap.notJoined_eq]
  · dsimp only
    split
    next => exact keeps_pure (clean_const _)
    next =>
      split
      next vs ws _ _ hvs hws =>
        exact keeps_allocate_list (Array.forall_mem_append.2 ⟨hm.heap.holds.list? hvs, hm.heap.holds.list? hws⟩)
      next vs ws hvs hws _ =>
        exact keeps_allocate_tuple (Array.forall_mem_append.2 ⟨hm.heap.holds.tuple? hvs, hm.heap.holds.tuple? hws⟩)
      next => exact keeps_fail _

theorem AlikeHeaps.repeated?_eq {h h' : Heap} (hh : b.AlikeHeaps h h') : repeated? h' = repeated? h := by
  unfold repeated?
  rw [hh.list?_eq, hh.tuple?_eq]

theorem AlikeHeaps.keeps_repeated {h h' : Heap} (hh : b.AlikeHeaps h h') {v : Value} {n : Int} {x : Step Value}
    (hx : repeated? h v n = some x) : b.Keeps b.Clean x := by
  unfold repeated? at hx
  split at hx
  next =>
    cases hx
    exact keeps_pure (clean_const _)
  next =>
    split at hx
    next items hitems =>
      cases hx
      exact keeps_allocate_list fun w hw ↦ hh.holds.list? hitems w (mem_of_mem_repeatItems hw)
    next items hitems _ =>
      cases hx
      exact keeps_allocate_tuple fun w hw ↦ hh.holds.tuple? hitems w (mem_of_mem_repeatItems hw)
    next => cases hx

theorem keeps_multiply (symbol : String) (v w : Value) : b.Keeps b.Clean (multiply symbol v w) := by
  refine keeps_get (fun s s' hm ↦ ?_) fun s s' hm ↦ ?_
  · simp only [hm.heap.repeated?_eq, hm.heap.typeName_eq]
  · dsimp only
    split
    next =>
      split
      next x hx => exact hm.heap.keeps_repeated hx
      next => exact keeps_fail _
    next =>
      split
      next x hx => exact hm.heap.keeps_repeated hx
      next => exact keeps_fail _
    next => split <;> exact keeps_fail _

theorem AlikeHeaps.canBeUnused_eq {h h' : Heap} (hh : b.AlikeHeaps h h') : canBeUnused h' = canBeUnused h := by
  funext v
  unfold canBeUnused
  rw [hh.list?_eq, hh.tuple?_eq]

theorem keeps_formatText (t : String) (w : Value) : b.Keeps b.Clean (formatText t w) := by
  unfold formatText
  split
  next => exact keeps_stuck
  next =>
    refine Keeps.andThen (keeps_look fun h h' hh ↦ by rw [hh.canBeUnused_eq]) fun r _ ↦ ?_
    cases r with
    | true => exact keeps_pure (clean_const _)
    | false => exact keeps_fail _

theorem keeps_arith (op : Arith) (symbol : String) (v w : Value) : b.Keeps b.Clean (op.apply symbol v w) := by
  unfold Arith.apply
  split
  next m n _ _ => exact Keeps.andThen (P := Any) (keeps_orFail fun _ _ ↦ trivial) fun _ _ ↦ keeps_pure (clean_const _)
  next =>
    split
    next => exact keeps_concatenate symbol v w
    next => exact keeps_multiply symbol v w
    next => exact keeps_formatText _ w
    next =>
      refine keeps_get (fun s s' hm ↦ ?_) fun s s' hm ↦ keeps_fail _
      simp only [hm.heap.typeName_eq]

/-- A list that is assigned to changes in place. -/
theorem keeps_update (op : Arith) {v : Value} (hv : b.Clean v) (w : Value) : b.Keeps b.Clean (op.update v w) := by
  refine keeps_get (fun s s' hm ↦ ?_) fun s s' hm ↦ ?_
  · simp only [hm.heap.list?_eq, hm.heap.items?_eq, hm.heap.typeName_eq]
  · dsimp only
    split
    next r items hitems =>
      split
      next more hmore =>
        refine (keeps_replace (.list ?_)).andThen fun _ _ ↦ keeps_pure hv
        exact Array.forall_mem_append.2 ⟨hm.heap.holds.list? hitems, hm.heap.holds.items? clean_const hmore⟩
      next => exact keeps_fail _
    next r items hitems =>
      split
      next n _ =>
        refine (keeps_replace (.list fun u hu ↦ ?_)).andThen fun _ _ ↦ keeps_pure hv
        exact hm.heap.holds.list? hitems u (mem_of_mem_repeatItems hu)
      next => exact keeps_fail _
    next => exact keeps_arith _ _ _ _

theorem keeps_unary (op : Unary) (v : Value) : b.Keeps b.Clean (op.apply v) := by
  refine keeps_get (fun s s' hm ↦ ?_) fun s s' hm ↦ ?_
  · simp only [hm.heap.isTrue_eq, hm.heap.typeName_eq]
  · cases op with
    | not => exact keeps_pure (clean_const _)
    | neg =>
      dsimp only
      split
      next => exact keeps_pure (clean_const _)
      next => exact keeps_fail _

/-! ## Items and attributes -/

theorem keeps_itemAt (v index : Value) : b.Keeps b.Clean (itemAt v index) := by
  refine keeps_get (fun s s' hm ↦ ?_) fun s s' hm ↦ ?_
  · simp only [hm.heap.length?_eq, hm.heap.item?_eq, hm.heap.typeName_eq]
  · dsimp only
    split
    next =>
      split
      next => exact keeps_stuck
      next => exact keeps_stuck
      next => exact keeps_fail _
    next => exact keeps_fail _
    next n i _ _ =>
      generalize (if i < 0 then i + n else i) = j
      split
      next item hitem =>
        refine keeps_pure ?_
        split at hitem
        next => cases hitem
        next => exact hm.heap.holds.item? clean_const hitem
      next => exact keeps_fail _

/-- Attributes are looked up in the same way. -/
theorem keeps_attributeOf {v : Value} (hv : b.Clean v) (name : String) : b.Keeps b.Clean (attributeOf v name) := by
  refine keeps_get (fun s s' hm ↦ ?_) fun s s' hm ↦ ?_
  · simp only [hm.heap.list?_eq, hm.heap.typeName_eq]
  · dsimp only
    split
    next => exact keeps_pure hv
    next => exact keeps_pure hv
    next => exact keeps_pure (clean_of_ledger?_eq_none rfl)
    iterate 2
      next =>
        split
        next => exact keeps_fail _
        next => exact keeps_stuck
    next => exact keeps_stuck

/-! ## Names -/

/-- Builtins are looked up in the same way. -/
theorem keeps_loadBuiltin (x : String) : b.Keeps b.Clean (loadBuiltin x) := by
  refine keeps_get (fun s s' hm ↦ ?_) fun s s' hm ↦ ?_
  · rw [hm.globals_eq builtinsName (.inr rfl)]
  · split
    next => exact keeps_itemAt _ _
    next =>
      split
      next v hv => exact keeps_pure (clean_of_ledger?_eq_none (ledger?_of_builtin? hv))
      next =>
        split
        next => exact keeps_stuck
        next => exact keeps_fail _

/-- A variable of the program. -/
theorem keeps_load {x : String} (hx : ¬b.Own x) (env : Env) : b.Keeps b.Clean (load env x) := by
  refine keeps_get (fun s s' hm ↦ ?_) fun s s' hm ↦ ?_
  · rw [hm.globals_eq x (.inl hx), hm.frames_eq]
  · split
    next =>
      split
      next v hv => exact keeps_pure (hm.globals x v hx hv)
      next => exact keeps_loadBuiltin x
    next frame own _ =>
      split
      next v hv =>
        obtain ⟨ns, hns, hv⟩ := Option.bind_eq_some_iff.1 hv
        exact keeps_pure (hm.frames frame ns hns x v hv)
      next => exact keeps_fail _

theorem keeps_checkImport : b.Keeps Any checkImport := by
  refine keeps_get (fun s s' hm ↦ ?_) fun s s' hm ↦ ?_
  · rw [hm.globals_eq builtinsName (.inr rfl)]
  · split
    next => exact keeps_stuck
    next => exact keeps_pure trivial

/-! ## Calls -/

theorem AlikeHeaps.rangeArguments_eq {h h' : Heap} (hh : b.AlikeHeaps h h') :
    rangeArguments h' = rangeArguments h := by
  funext args
  induction args with
  | nil => rfl
  | cons v vs ih => simp only [rangeArguments, ih, hh.typeName_eq]

theorem AlikeHeaps.makeRange_eq {h h' : Heap} (hh : b.AlikeHeaps h h') : makeRange h' = makeRange h := by
  unfold makeRange
  rw [hh.rangeArguments_eq]

theorem keeps_builtin (f : Builtin) (args : List Value) : b.Keeps b.Clean (f.apply args) := by
  refine keeps_get (fun s s' hm ↦ ?_) fun s s' hm ↦ ?_
  · simp only [hm.heap.length?_eq, hm.heap.typeName_eq, hm.heap.makeRange_eq]
  · dsimp only
    split
    next =>
      split
      next => exact keeps_pure (clean_const _)
      next => exact keeps_fail _
    next => exact keeps_fail _
    next => exact keeps_orFail fun v hv ↦ clean_of_ledger?_eq_none (ledger?_of_makeRange hv)

theorem keeps_appendItem (r : Ref) {args : List Value} (hargs : ∀ v ∈ args, b.Clean v) :
    b.Keeps b.Clean (appendItem r args) := by
  refine keeps_get (fun s s' hm ↦ ?_) fun s s' hm ↦ ?_
  · simp only [hm.heap.list?_eq]
  · split
    next v items hitems =>
      have hv : b.Clean v := hargs v (List.mem_singleton_self v)
      refine (keeps_replace (.list fun w hw ↦ ?_)).andThen fun _ _ ↦ keeps_pure (clean_const _)
      rcases Array.mem_push.1 hw with hw | rfl
      · exact hm.heap.holds.list? hitems w hw
      · exact hv
    next => exact keeps_fail _

/-! ## Exceptions -/

theorem keeps_catches (exception types : Value) : b.Keeps Any (catches exception types) := by
  refine keeps_get (fun s s' hm ↦ ?_) fun s s' hm ↦ ?_
  · simp only [hm.heap.tuple?_eq, hm.heap.exception?_eq]
  · dsimp only
    split
    next => exact keeps_fail _
    next =>
      split
      next => exact keeps_pure trivial
      next => exact keeps_pure trivial

theorem keeps_raisable {v : Value} (hv : b.Clean v) : b.Keeps b.Clean (raisable v) := by
  unfold raisable
  split
  next c => exact keeps_allocate (.exception (by simp))
  next =>
    refine Keeps.andThen (keeps_look fun h h' hh ↦ by rw [hh.exception?_eq]) fun r _ ↦ ?_
    cases r with
    | some _ => exact keeps_pure hv
    | none => exact keeps_fail _

end Coverage.Program.Comparison
