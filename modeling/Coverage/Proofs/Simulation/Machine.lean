import Coverage.Proofs.Simulation.Basic

/-!
# Comparing steps of the machine

Heaps that are alike cannot be told apart by looking at types, items or exceptions. Events of the original
are made up for in the traced run by the counter that belongs to their label.
-/

namespace Coverage.Program.Comparison

variable {b : Comparison}

/-! ## Values -/

theorem clean_of_ledger?_eq_none {v : Value} (h : v.ledger? = none) : b.Clean v := by
  intro hsome
  rw [h] at hsome
  cases hsome

@[simp]
theorem clean_const (c : Literal) : b.Clean (.const c) := clean_of_ledger?_eq_none rfl

@[simp]
theorem clean_object (r : Ref) : b.Clean (.object r) := clean_of_ledger?_eq_none rfl

/-! ## Heaps -/

section Heaps

variable {h h' : Heap}

/-- A reference leads to alike objects or to none. -/
theorem AlikeHeaps.cases (hh : b.AlikeHeaps h h') (r : Ref) :
    h[r]? = none ∧ h'[r]? = none ∨ ∃ o o', h[r]? = some o ∧ h'[r]? = some o' ∧ b.AlikeObjects o o' := by
  have hr := hh.objects r
  generalize h[r]? = o at hr ⊢
  generalize h'[r]? = o' at hr ⊢
  cases hr with
  | none => exact .inl ⟨rfl, rfl⟩
  | some ho => exact .inr ⟨_, _, rfl, rfl, ho⟩

/-- What is read off one object is the same if it is the same for objects that are alike. -/
theorem AlikeHeaps.look_eq {γ : Type} (hh : b.AlikeHeaps h h') {f : Option Object → γ}
    (hf : ∀ o o', b.AlikeObjects o o' → f (some o') = f (some o)) (r : Ref) : f h'[r]? = f h[r]? := by
  rcases hh.cases r with ⟨h₁, h₂⟩ | ⟨o, o', h₁, h₂, ho⟩
  · rw [h₁, h₂]
  · rw [h₁, h₂, hf o o' ho]

theorem AlikeHeaps.list?_eq (hh : b.AlikeHeaps h h') : h'.list? = h.list? := by
  funext v
  cases v with
  | object r =>
    unfold Heap.list?
    rcases hh.cases r with ⟨h₁, h₂⟩ | ⟨o, o', h₁, h₂, ho⟩
    · simp only [h₁, h₂]
    · cases ho <;> simp only [h₁, h₂]
  | _ => rfl

theorem AlikeHeaps.tuple?_eq (hh : b.AlikeHeaps h h') : h'.tuple? = h.tuple? := by
  funext v
  cases v with
  | object r =>
    unfold Heap.tuple?
    rcases hh.cases r with ⟨h₁, h₂⟩ | ⟨o, o', h₁, h₂, ho⟩
    · simp only [h₁, h₂]
    · cases ho <;> simp only [h₁, h₂]
  | _ => rfl

theorem AlikeHeaps.exception?_eq (hh : b.AlikeHeaps h h') : h'.exception? = h.exception? := by
  funext v
  cases v with
  | object r =>
    unfold Heap.exception?
    rcases hh.cases r with ⟨h₁, h₂⟩ | ⟨o, o', h₁, h₂, ho⟩
    · simp only [h₁, h₂]
    · cases ho <;> simp only [h₁, h₂]
  | _ => rfl

theorem AlikeHeaps.typeName_eq (hh : b.AlikeHeaps h h') : h'.typeName = h.typeName := by
  funext v
  cases v with
  | object r =>
    refine hh.look_eq (f := fun o ↦ (o.map Heap.objectType).getD "object") ?_ r
    rintro _ _ (_ | _ | _ | _) <;> rfl
  | builtin f => cases f <;> rfl
  | _ => rfl

theorem AlikeHeaps.length?_eq (hh : b.AlikeHeaps h h') : h'.length? = h.length? := by
  funext v
  unfold Heap.length?
  rw [hh.list?_eq, hh.tuple?_eq]

theorem AlikeHeaps.item?_eq (hh : b.AlikeHeaps h h') : h'.item? = h.item? := by
  funext v i
  unfold Heap.item?
  rw [hh.list?_eq, hh.tuple?_eq]

theorem AlikeHeaps.items?_eq (hh : b.AlikeHeaps h h') : h'.items? = h.items? := by
  funext v
  unfold Heap.items?
  rw [hh.list?_eq, hh.tuple?_eq]

theorem AlikeHeaps.isTrue_eq (hh : b.AlikeHeaps h h') : h'.isTrue = h.isTrue := by
  funext v
  unfold Heap.isTrue
  rw [hh.length?_eq]

/-- A function has its traced form in the other heap. -/
theorem AlikeHeaps.function? (hh : b.AlikeHeaps h h') (v : Value) :
    Option.Rel b.AlikeClosures (h.function? v) (h'.function? v) := by
  cases v with
  | object r =>
    unfold Heap.function?
    rcases hh.cases r with ⟨h₁, h₂⟩ | ⟨o, o', h₁, h₂, ho⟩
    · simp only [h₁, h₂]
      exact .none
    · cases ho with
      | function hf =>
        simp only [h₁, h₂]
        exact .some hf
      | _ =>
        simp only [h₁, h₂]
        exact .none
  | _ => exact .none

/-- Values in alike heaps give no access to the counters. -/
theorem AlikeHeaps.holds (hh : b.AlikeHeaps h h') : h.Holds b.Clean := by
  intro r o hr
  rcases hh.cases r with ⟨h₁, -⟩ | ⟨o', o'', h₁, -, ho⟩
  · rw [h₁] at hr
    cases hr
  · obtain rfl : o' = o := Option.some.inj (h₁.symm.trans hr)
    cases ho with
    | list clean => exact fun v hv ↦ clean v (Array.mem_toList_iff.1 hv)
    | tuple clean => exact fun v hv ↦ clean v (Array.mem_toList_iff.1 hv)
    | exception clean => exact clean
    | function hf =>
      cases hf with
      | intro _ clean => exact clean

end Heaps

/-! ## Events and counters -/

section Events

variable {α β : Type} {R : α → β → Prop} {x : Step α} {x' : Step β} {event : Event}

theorem outcome_record (event : Event) (s : State) :
    outcome (record event) s = (.ok (), { s with history := event :: s.history }) := rfl

/-- The step that a counter takes. -/
def mark (b : Comparison) (key : Key) : Step Unit := modifyLedger b.ledger (·.hit b.tracing.file key)

theorem rel_map {α β : Type} {R S : α → β → Prop} {o : Option α} {o' : Option β} (h : Option.Rel R o o') {f : α → α}
    {g : β → β} (hfg : ∀ x y, R x y → S (f x) (g y)) : Option.Rel S (o.map f) (o'.map g) := by
  cases h with
  | none => exact .none
  | some hxy => exact .some (hfg _ _ hxy)

theorem AlikeLedgers.skip {history : List Event} {ls ls' : Array Ledger} (h : b.AlikeLedgers history ls ls')
    (quiet : b.tracing.labels event none) : b.AlikeLedgers (event :: history) ls ls' where
  present := h.present
  others := h.others
  own := by simpa using rel_map h.own (f := id) (g := id) fun _ _ ↦ b.skip quiet

/-- A counter counts in one of the ledgers. -/
theorem AlikeLedgers.count {history : List Event} {ls ls' : Array Ledger} {key : Key}
    (h : b.AlikeLedgers history ls ls') (label : b.tracing.labels event (some key)) :
    b.AlikeLedgers (event :: history) ls (ls'.modify b.ledger (·.hit b.tracing.file key)) where
  present := h.present
  others m hm := by rw [Array.getElem?_modify, if_neg (Ne.symm hm), h.others m hm]
  own := by
    rw [Array.getElem?_modify, if_pos rfl]
    simpa using rel_map h.own (f := id) fun _ _ ↦ b.count label

/-- An event of the original that is not counted. -/
theorem Sim.record_left (quiet : b.tracing.labels event none) (hx : b.Sim R x x') :
    b.Sim R (record event >>= fun _ ↦ x) x' :=
  fun s s' hm ↦ hx { s with history := event :: s.history } s' { hm with ledgers := hm.ledgers.skip quiet }

/-- The history of the traced run does not matter. -/
theorem Sim.record_right (hx : b.Sim R x x') : b.Sim R x (record event >>= fun _ ↦ x') :=
  fun s s' hm ↦ hx s { s' with history := event :: s'.history } { hm with }

/-- An event of the original and its counter. -/
theorem Sim.record_mark {key : Key} (label : b.tracing.labels event (some key)) (hx : b.Sim R x x') :
    b.Sim R (record event >>= fun _ ↦ x) (b.mark key >>= fun _ ↦ x') :=
  fun s s' hm ↦ hx { s with history := event :: s.history }
    { s' with ledgers := s'.ledgers.modify b.ledger (·.hit b.tracing.file key) }
    { hm with ledgers := hm.ledgers.count label }

/-- The program counts something itself. -/
theorem keeps_hit {l : LedgerId} (use : l = b.ledger → b.shared) (file : String) (key : Key) :
    b.Keeps Any (modifyLedger l (·.hit file key)) := by
  refine keeps_modify fun s s' hm ↦ { hm with ledgers := ?_ }
  refine ⟨fun hpresent ↦ ?_, fun m hne ↦ ?_, ?_⟩
  · rw [Array.size_modify]
    exact hm.ledgers.present hpresent
  · rw [Array.getElem?_modify, Array.getElem?_modify, hm.ledgers.others m hne]
  · rw [Array.getElem?_modify, Array.getElem?_modify]
    split
    next hl => exact rel_map hm.ledgers.own fun _ _ ↦ b.hit file key (use hl)
    next => exact hm.ledgers.own

end Events

/-! ## Memory -/

theorem AlikeHeaps.push {h h' : Heap} (hh : b.AlikeHeaps h h') {o o' : Object} (ho : b.AlikeObjects o o') :
    b.AlikeHeaps (h.push o) (h'.push o') where
  size_eq := by simp [hh.size_eq]
  objects r := by
    rw [Array.getElem?_push, Array.getElem?_push, hh.size_eq]
    split
    · exact .some ho
    · exact hh.objects r

theorem AlikeHeaps.set {h h' : Heap} (hh : b.AlikeHeaps h h') {o o' : Object} (ho : b.AlikeObjects o o') (r : Ref) :
    b.AlikeHeaps (h.setIfInBounds r o) (h'.setIfInBounds r o') where
  size_eq := by simp [hh.size_eq]
  objects i := by
    rw [Array.getElem?_setIfInBounds, Array.getElem?_setIfInBounds, hh.size_eq]
    split
    · split
      · exact .some ho
      · exact .none
    · exact hh.objects i

theorem sim_allocate {o o' : Object} (ho : b.AlikeObjects o o') : b.Sim (Same b.Clean) (allocate o) (allocate o') := by
  intro s s' hm
  refine ⟨.ok ?_, { hm with heap := hm.heap.push ho }⟩
  rw [hm.heap.size_eq]
  exact ⟨clean_object _⟩

theorem keeps_allocate {o : Object} (ho : b.AlikeObjects o o) : b.Keeps b.Clean (allocate o) := sim_allocate ho

theorem keeps_replace {r : Ref} {o : Object} (ho : b.AlikeObjects o o) : b.Keeps Any (replace r o) :=
  keeps_modify fun _ _ hm ↦ { hm with heap := hm.heap.set ho r }

theorem keeps_pushFrame {ns : Namespace} (clean : b.CleanNamespace ns) : b.Keeps Any (pushFrame ns) := by
  intro s s' hm
  have hsize : s'.frames.size = s.frames.size := by rw [hm.frames_eq]
  refine ⟨.ok ?_, { hm with frames_eq := congrArg (·.push ns) hm.frames_eq, frames := fun frame ns' hframe ↦ ?_ }⟩
  · rw [hsize]
    exact ⟨trivial⟩
  · change (s.frames.push ns)[frame]? = some ns' at hframe
    rw [Array.getElem?_push] at hframe
    split at hframe
    · cases hframe
      exact clean
    · exact hm.frames frame ns' hframe

theorem keeps_modifyFrame {frame : Nat} {f : Namespace → Namespace}
    (hf : ∀ ns, b.CleanNamespace ns → b.CleanNamespace (f ns)) : b.Keeps Any (modifyFrame frame f) := by
  refine keeps_modify fun s s' hm ↦ { hm with
    frames_eq := congrArg (·.modify frame f) hm.frames_eq
    frames := fun frame' ns hframe ↦ ?_ }
  change (s.frames.modify frame f)[frame']? = some ns at hframe
  rw [Array.getElem?_modify] at hframe
  split at hframe
  · obtain ⟨ns', hframe', rfl⟩ := Option.map_eq_some_iff.1 hframe
    exact hf ns' (hm.frames frame' ns' hframe')
  · exact hm.frames frame' ns hframe

/-! ## Exceptions of the language -/

variable {α : Type} {P : α → Prop}

theorem keeps_fail (p : Problem) : b.Keeps P (fail p) := by
  have ho : b.AlikeObjects (.exception p.cls [.str p.message]) (.exception p.cls [.str p.message]) :=
    .exception (by simp [Value.str])
  exact (keeps_allocate ho).andThen fun v hv ↦ sim_throwValue hv

theorem keeps_stuck : b.Keeps P stuck := sim_stuck

theorem keeps_orFail {r : Except Problem α} (h : ∀ a, r = .ok a → P a) : b.Keeps P (orFail r) := by
  cases r with
  | ok a => exact keeps_pure (h a rfl)
  | error p => exact keeps_fail p

/-! ## Variables -/

theorem ne_of_not_own {x : String} (hx : ¬b.Own x) (counts : b.tracing.counts) : b.globalName ≠ x :=
  fun heq ↦ hx ⟨counts, heq.symm⟩

/-- A variable of the program gets a value. -/
theorem keeps_bind {x : String} (hx : ¬b.Own x) {v : Value} (hv : b.Clean v) (env : Env) :
    b.Keeps Any (Program.bind env x v) := by
  unfold Program.bind
  split
  · split
    · exact keeps_stuck
    refine keeps_modify fun s s' hm ↦ { hm with globals_eq := ?_, globals := ?_, bound := ?_, read := ?_ }
    · intro y hy
      change (s'.globals.put x v).get? y = (s.globals.put x v).get? y
      rw [OrderedMap.get?_put, OrderedMap.get?_put, hm.globals_eq y hy]
    · intro y w hy hw
      change (s.globals.put x v).get? y = some w at hw
      rw [OrderedMap.get?_put] at hw
      split at hw
      · cases hw
        exact hv
      · exact hm.globals y w hy hw
    · intro counts
      change (s'.globals.put x v).get? b.globalName = _
      rw [OrderedMap.get?_put_of_ne _ _ (ne_of_not_own hx counts), hm.bound counts]
    · intro counts hreads
      change (s.globals.put x v).get? b.globalName = _
      rw [OrderedMap.get?_put_of_ne _ _ (ne_of_not_own hx counts), hm.read counts hreads]
  · exact keeps_modifyFrame fun ns hns ↦ Namespace.Holds.put hns hv x

/-- A variable of the program loses its value. -/
theorem keeps_unbind {x : String} (hx : ¬b.Own x) (env : Env) : b.Keeps Any (unbind env x) := by
  unfold unbind
  split
  · split
    · exact keeps_stuck
    refine keeps_modify fun s s' hm ↦ { hm with globals_eq := ?_, globals := ?_, bound := ?_, read := ?_ }
    · intro y hy
      change (s'.globals.erase x).get? y = (s.globals.erase x).get? y
      rw [OrderedMap.get?_erase, OrderedMap.get?_erase, hm.globals_eq y hy]
    · intro y w hy hw
      change (s.globals.erase x).get? y = some w at hw
      rw [OrderedMap.get?_erase] at hw
      split at hw
      · cases hw
      · exact hm.globals y w hy hw
    · intro counts
      change (s'.globals.erase x).get? b.globalName = _
      rw [OrderedMap.get?_erase_of_ne _ (ne_of_not_own hx counts), hm.bound counts]
    · intro counts hreads
      change (s.globals.erase x).get? b.globalName = _
      rw [OrderedMap.get?_erase_of_ne _ (ne_of_not_own hx counts), hm.read counts hreads]
  · exact keeps_modifyFrame fun ns hns ↦ Namespace.Holds.erase hns x

theorem keeps_bindAll {v : Value} (hv : b.Clean v) (env : Env) :
    ∀ {xs : List String}, (∀ x ∈ xs, ¬b.Own x) → b.Keeps Any (bindAll env v xs)
  | [], _ => keeps_pure trivial
  | _ :: _, hxs => (keeps_bind (List.forall_mem_cons.1 hxs).1 hv env).andThen fun _ _ ↦
    keeps_bindAll hv env (List.forall_mem_cons.1 hxs).2

theorem keeps_bindPairs (env : Env) :
    ∀ {pairs : List (String × Value)}, (∀ p ∈ pairs, ¬b.Own p.1 ∧ b.Clean p.2) →
      b.Keeps Any (bindPairs env pairs)
  | [], _ => keeps_pure trivial
  | (x, v) :: _, h => by
    obtain ⟨⟨hx, hv⟩, hrest⟩ := List.forall_mem_cons.1 h
    exact (keeps_bind hx hv env).andThen fun _ _ ↦ keeps_bindPairs env hrest

end Coverage.Program.Comparison
