import Coverage.Proofs.Program.Traced
import Coverage.Proofs.Program.Values

/-!
# Comparing runs

A run of a program and a run of its traced form go side by side. Their states match if they differ in nothing
but the code of functions, the variable of counters and the ledger that it holds. A comparison says how that
ledger is related to what happened in the run of the original, and whether the program can use the ledger as
well. Steps that keep states matched and end alike can be put together in the same ways as steps themselves.
-/

namespace Coverage.Program

/-- No scope has a variable of some kind. -/
def Free (own : String → Prop) (env : Env) : Prop := ∀ scope ∈ env, ∀ x ∈ scope.locals, ¬own x

/-- How a traced run is compared with the run of the original. -/
structure Comparison where
  tracing : Tracing
  /-- The ledger that counters use. -/
  ledger : LedgerId
  /-- Whether the ledger is known to be there. -/
  present : Prop
  /-- Whether the program itself can have access to the ledger. -/
  shared : Prop
  access : tracing.reads → shared
  /-- What the ledger may hold in the run of the original and in the traced run after some events, the latest
  first. -/
  agree : List Event → Ledger → Ledger → Prop
  skip {event : Event} {history : List Event} {own traced : Ledger} (label : tracing.labels event none)
    (h : agree history own traced) : agree (event :: history) own traced
  count {event : Event} {key : Key} {history : List Event} {own traced : Ledger}
    (label : tracing.labels event (some key)) (h : agree history own traced) :
    agree (event :: history) own (traced.hit tracing.file key)
  hit {history : List Event} {own traced : Ledger} (file : String) (key : Key) (use : shared)
    (h : agree history own traced) : agree history (own.hit file key) (traced.hit file key)

namespace Comparison

variable (b : Comparison)

/-- The variable that counters use. -/
abbrev globalName : String := b.tracing.globalName

abbrev Own (x : String) : Prop := b.tracing.Own x

/-! ## States -/

/-- A value that the program can hold. -/
def Clean (v : Value) : Prop := v.ledger? = some b.ledger → b.shared

/-- Variables that the program can have. -/
def CleanNamespace (ns : Namespace) : Prop := ∀ x v, ns.get? x = some v → b.Clean v

/-- A function and its traced form. -/
inductive AlikeClosures : Closure → Closure → Prop
  | intro {f : Closure} {body : Body} (code : TracedCode b.tracing f.id f.body body)
    (defaults : ∀ v ∈ f.defaults, b.Clean v) (locals : ∀ x ∈ f.locals, ¬b.Own x) (env : Free b.Own f.env) :
    AlikeClosures f { f with body }

inductive AlikeObjects : Object → Object → Prop
  | list {items : Array Value} (clean : ∀ v ∈ items, b.Clean v) : AlikeObjects (.list items) (.list items)
  | tuple {items : Array Value} (clean : ∀ v ∈ items, b.Clean v) : AlikeObjects (.tuple items) (.tuple items)
  | exception {cls : ExceptionClass} {args : List Value} (clean : ∀ v ∈ args, b.Clean v) :
    AlikeObjects (.exception cls args) (.exception cls args)
  | function {f f' : Closure} (h : b.AlikeClosures f f') : AlikeObjects (.function f) (.function f')

structure AlikeHeaps (h h' : Heap) : Prop where
  size_eq : h'.size = h.size
  objects : ∀ r : Ref, Option.Rel b.AlikeObjects h[r]? h'[r]?

structure AlikeLedgers (history : List Event) (ledgers ledgers' : Array Ledger) : Prop where
  present : b.present → b.ledger < ledgers.size
  others : ∀ m : LedgerId, m ≠ b.ledger → ledgers'[m]? = ledgers[m]?
  own : Option.Rel (b.agree history) ledgers[b.ledger]? ledgers'[b.ledger]?

/-- The states of the two runs match. The name of the functions of the language counts in both runs, even if
it is the variable of counters. -/
structure Matched (s s' : State) : Prop where
  heap : b.AlikeHeaps s.heap s'.heap
  frames_eq : s'.frames = s.frames
  frames : ∀ (frame : Nat) (ns : Namespace), s.frames[frame]? = some ns → b.CleanNamespace ns
  globals_eq : ∀ x, ¬b.Own x ∨ x = builtinsName → s'.globals.get? x = s.globals.get? x
  globals : ∀ x v, ¬b.Own x → s.globals.get? x = some v → b.Clean v
  bound : b.tracing.counts → s'.globals.get? b.globalName = some (.ledger b.ledger)
  read : b.tracing.counts → b.tracing.reads → s.globals.get? b.globalName = some (.ledger b.ledger)
  handled_eq : s'.handled = s.handled
  handled : ∀ v ∈ s.handled, b.Clean v
  ledgers : b.AlikeLedgers s.history s.ledgers s'.ledgers

/-! ## Steps -/

variable {α β γ δ : Type}

/-- The two runs end alike. -/
inductive Ends (R : α → β → Prop) : Except Halt α → Except Halt β → Prop
  | ok {x y} (h : R x y) : Ends R (.ok x) (.ok y)
  | raised {e} (clean : b.Clean e) : Ends R (.error (.raised e)) (.error (.raised e))
  | outOfFuel : Ends R (.error .outOfFuel) (.error .outOfFuel)
  | stuck : Ends R (.error .stuck) (.error .stuck)

/-- In matched states the steps end alike, and they lead to matched states. -/
def Sim (R : α → β → Prop) (x : Step α) (x' : Step β) : Prop :=
  ∀ s s', b.Matched s s' →
    b.Ends R (outcome x s).1 (outcome x' s').1 ∧ b.Matched (outcome x s).2 (outcome x' s').2

/-- Both runs have the same value, of which something holds. -/
inductive Same (P : α → Prop) : α → α → Prop
  | intro {a} (h : P a) : Same P a a

/-- A step that ends in both runs with the same value, of which something holds. -/
def Keeps (P : α → Prop) (x : Step α) : Prop := b.Sim (Same P) x x

/-- Any value. -/
def Any (_ : α) : Prop := True

variable {b} {R : α → β → Prop} {S : γ → δ → Prop} {P : α → Prop} {Q : γ → Prop}

theorem sim_pure {x : α} {y : β} (h : R x y) : b.Sim R (pure x) (pure y) :=
  fun _ _ hm ↦ ⟨.ok h, hm⟩

theorem sim_throwValue {e : Value} (clean : b.Clean e) : b.Sim R (throwValue e) (throwValue e) :=
  fun _ _ hm ↦ ⟨.raised clean, hm⟩

theorem sim_stuck : b.Sim R stuck stuck := fun _ _ hm ↦ ⟨.stuck, hm⟩

theorem sim_outOfFuel : b.Sim R (throw .outOfFuel) (throw .outOfFuel) := fun _ _ hm ↦ ⟨.outOfFuel, hm⟩

/-- Simulated steps in a row. -/
theorem Sim.bind {x : Step α} {x' : Step β} {f : α → Step γ} {f' : β → Step δ} (hx : b.Sim R x x')
    (hf : ∀ a a', R a a' → b.Sim S (f a) (f' a')) : b.Sim S (x >>= f) (x' >>= f') := by
  intro s s' hm
  obtain ⟨hends, hm'⟩ := hx s s' hm
  rw [outcome_bind, outcome_bind]
  rcases houtcome : outcome x s with ⟨r, t⟩
  rcases houtcome' : outcome x' s' with ⟨r', t'⟩
  rw [houtcome, houtcome'] at hends hm'
  cases hends with
  | ok h => exact hf _ _ h t t' hm'
  | raised clean => exact ⟨.raised clean, hm'⟩
  | outOfFuel => exact ⟨.outOfFuel, hm'⟩
  | stuck => exact ⟨.stuck, hm'⟩

/-- Steps that go on after two steps which have been compared together. -/
theorem Sim.bindAfter {ε ζ : Type} {T : ε → ζ → Prop} {x : Step α} {x' : Step β} {f : α → Step γ} {f' : β → Step δ}
    {g : γ → Step ε} {g' : δ → Step ζ} (h : b.Sim S (x >>= f) (x' >>= f'))
    (hg : ∀ r r', S r r' → b.Sim T (g r) (g' r')) :
    b.Sim T (x >>= fun a ↦ f a >>= g) (x' >>= fun a ↦ f' a >>= g') := by
  rw [← bind_assoc, ← bind_assoc]
  exact h.bind hg

/-- A step with the same value in both runs, and then others. -/
theorem Sim.andThen {x x' : Step α} {f : α → Step γ} {f' : α → Step δ} (hx : b.Sim (Same P) x x')
    (hf : ∀ a, P a → b.Sim S (f a) (f' a)) : b.Sim S (x >>= f) (x' >>= f') := by
  refine hx.bind ?_
  rintro a _ ⟨h⟩
  exact hf a h

theorem Keeps.andThen {x : Step α} {f : α → Step γ} (hx : b.Keeps P x) (hf : ∀ a, P a → b.Keeps Q (f a)) :
    b.Keeps Q (x >>= f) :=
  Sim.andThen hx hf

theorem keeps_pure {a : α} (h : P a) : b.Keeps P (pure a) := sim_pure ⟨h⟩

/-- A step of the traced run can be replaced by one that does the same wherever the counters are bound. -/
theorem Sim.of_bound (counts : b.tracing.counts) {x : Step α} {x' y' : Step β} (h : b.Sim R x y')
    (heq : ∀ s : State, s.globals.get? b.globalName = some (.ledger b.ledger) → outcome x' s = outcome y' s) :
    b.Sim R x x' := by
  intro s s' hm
  rw [heq s' (hm.bound counts)]
  exact h s s' hm

theorem Sim.of_bound_bind (counts : b.tracing.counts) {x : Step γ} {x' y' : Step β} {f' : β → Step δ}
    (h : b.Sim S x (y' >>= f'))
    (heq : ∀ s : State, s.globals.get? b.globalName = some (.ledger b.ledger) → outcome x' s = outcome y' s) :
    b.Sim S x (x' >>= f') :=
  Sim.of_bound counts h fun s bound ↦ by rw [outcome_bind, outcome_bind, heq s bound]

theorem sim_get {f : State → Step α} {f' : State → Step β} (h : ∀ s s', b.Matched s s' → b.Sim R (f s) (f' s')) :
    b.Sim R (get >>= f) (get >>= f') :=
  fun s s' hm ↦ h s s' hm s s' hm

/-- A step that looks at the state only for what matched states have in common. -/
theorem keeps_get {f : State → Step α} (same : ∀ s s', b.Matched s s' → f s' = f s)
    (h : ∀ s s', b.Matched s s' → b.Keeps P (f s)) : b.Keeps P (get >>= f) := by
  refine sim_get fun s s' hm ↦ ?_
  rw [same s s' hm]
  exact h s s' hm

theorem keeps_modify {f : State → State} (h : ∀ s s', b.Matched s s' → b.Matched (f s) (f s')) :
    b.Keeps Any (modify f : Step Unit) :=
  fun s s' hm ↦ ⟨.ok ⟨trivial⟩, h s s' hm⟩

theorem sim_look {f f' : Heap → α} {R : α → α → Prop}
    (h : ∀ g g', b.AlikeHeaps g g' → R (f g) (f' g')) : b.Sim R (look f) (look f') :=
  sim_get fun _ _ hm ↦ sim_pure (h _ _ hm.heap)

/-- A look at what heaps that are alike have in common. -/
theorem keeps_look {f : Heap → α} (h : ∀ g g', b.AlikeHeaps g g' → f g' = f g) : b.Keeps Any (look f) := by
  refine sim_look fun g g' hg ↦ ?_
  rw [h g g' hg]
  exact ⟨trivial⟩

/-! ## Exceptions -/

/-- Attempts in the two runs ended alike. -/
inductive Attempted (b : Comparison) (R : α → β → Prop) : Except Value α → Except Value β → Prop
  | ok {x y} (h : R x y) : Attempted b R (.ok x) (.ok y)
  | error {e} (clean : b.Clean e) : Attempted b R (.error e) (.error e)

/-- What an attempt makes of the end of a step. -/
theorem outcome_attempt (x : Step α) (s : State) :
    outcome (attempt x) s =
      match outcome x s with
      | (.ok a, t) => (.ok (.ok a), t)
      | (.error (.raised e), t) => (.ok (.error e), t)
      | (.error .outOfFuel, t) => (.error .outOfFuel, t)
      | (.error .stuck, t) => (.error .stuck, t) := by
  have hmap : outcome (Except.ok <$> x : Step (Except Value α)) s =
      match outcome x s with
      | (.ok a, t) => (.ok (.ok a), t)
      | (.error e, t) => (.error e, t) := by
    rw [map_eq_pure_bind, outcome_bind]
    rcases outcome x s with ⟨_ | _, t⟩ <;> rfl
  rw [attempt, outcome_tryCatch, hmap]
  rcases outcome x s with ⟨(_ | _ | _) | _, t⟩ <;> rfl

theorem Sim.attempt {x : Step α} {x' : Step β} (hx : b.Sim R x x') :
    b.Sim (Attempted b R) (Program.attempt x) (Program.attempt x') := by
  intro s s' hm
  obtain ⟨hends, hm'⟩ := hx s s' hm
  rw [outcome_attempt, outcome_attempt]
  rcases houtcome : outcome x s with ⟨r, t⟩
  rcases houtcome' : outcome x' s' with ⟨r', t'⟩
  rw [houtcome, houtcome'] at hends hm'
  cases hends with
  | ok h => exact ⟨.ok (.ok h), hm'⟩
  | raised clean => exact ⟨.ok (.error clean), hm'⟩
  | outOfFuel => exact ⟨.outOfFuel, hm'⟩
  | stuck => exact ⟨.stuck, hm'⟩

theorem sim_resume {r : Except Value α} {r' : Except Value β} (h : Attempted b R r r') :
    b.Sim R (resume r) (resume r') := by
  cases h with
  | ok h => exact sim_pure h
  | error clean => exact sim_throwValue clean

/-- What is run while an exception is handled. -/
theorem Sim.handling {e : Value} (clean : b.Clean e) {x : Step α} {x' : Step β} (hx : b.Sim R x x') :
    b.Sim R (Program.handling e x) (Program.handling e x') := by
  have hpush : b.Keeps Any (modify fun s ↦ { s with handled := e :: s.handled } : Step Unit) :=
    keeps_modify fun s s' hm ↦ { hm with
      handled_eq := congrArg (e :: ·) hm.handled_eq
      handled := List.forall_mem_cons.2 ⟨clean, hm.handled⟩ }
  have hpop : b.Keeps Any (modify fun s ↦ { s with handled := s.handled.tail } : Step Unit) :=
    keeps_modify fun s s' hm ↦ { hm with
      handled_eq := congrArg List.tail hm.handled_eq
      handled := fun v hv ↦ hm.handled v (List.mem_of_mem_tail hv) }
  refine Sim.andThen hpush fun _ _ ↦ hx.attempt.bind fun r r' hr ↦ ?_
  exact Sim.andThen hpop fun _ _ ↦ sim_resume hr

end Comparison

end Coverage.Program
