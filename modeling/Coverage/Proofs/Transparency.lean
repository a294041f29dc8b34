import Coverage.Proofs.Correspondence.Keys
import Coverage.Proofs.Ledger
import Coverage.Proofs.Simulation.Start
import Coverage.Proofs.Weaving.Statements

/-!
# Counters do not change what a program does

A program that does not use the variable of counters runs in the same way with counters as it does alone: it ends
with the same outcome and the same values, and what differs is the code of functions and the counts. Functions that
are there already may use the counters if these are there already too, but must not give their variable another
value.

Three names cannot be the variable of counters, although a configuration may have them: `__debug__`, which is a
constant wherever it is written, `__builtins__`, through which every program finds the functions of the language, and
`__doc__`, if the module has a docstring to put there.
-/

namespace Coverage.Pass

open Syntax Program

/-- Objects that differ at most in the code of a function. -/
inductive SameButCode : Object → Object → Prop
  | same (o : Object) : SameButCode o o
  | code (f : Closure) (body : Body) : SameButCode (.function f) (.function { f with body })

/-- Two runs end alike and leave the same behind, up to the value of one variable, the code of functions, and
higher counts of some keys of a file in one ledger. -/
structure Indistinct (globalName file : String) (keys : List Key) (l : LedgerId) (r r' : Ran) : Prop where
  outcome_eq : r'.outcome = r.outcome
  globals_eq : ∀ x, x ≠ globalName → r'.globals.get? x = r.globals.get? x
  heap : ∀ ref : Ref, Option.Rel SameButCode r.memory.heap[ref]? r'.memory.heap[ref]?
  frames_eq : r'.memory.frames = r.memory.frames
  others_eq : ∀ m : LedgerId, m ≠ l → r'.memory.ledgers[m]? = r.memory.ledgers[m]?
  counts : (r.memory.ledger l).Grown file keys (r'.memory.ledger l)

/-- The variable holds the ledger. -/
def Counters (x : String) (l : LedgerId) (ns : Namespace) : Prop := ns.get? x = some (.ledger l)

instance (x : String) (l : LedgerId) (ns : Namespace) : Decidable (Counters x l ns) :=
  inferInstanceAs (Decidable (_ = _))

/-- No code may bind the variable of counters, and code may look at it if the counters are there already. -/
def beside (x : String) (l : LedgerId) (ns : Namespace) : Allowed where
  name y := y != x
  load y := y != x || decide (Counters x l ns)

/-- Runs are compared up to higher counts of some keys, whatever the program itself counts. -/
def upToCounts (plan : Plan) (l : LedgerId) (ns : Namespace) (keys : List Key) : Comparison where
  tracing := tracingOf plan (fun _ key ↦ ∀ k, key = some k → k ∈ keys) (Counters plan.globalName l ns)
  ledger := l
  present := False
  shared := True
  access _ := trivial
  agree _ own traced := own.Grown plan.filename keys traced
  skip _ h := h
  count label h := h.hit (label _ rfl)
  hit file key _ h := h.hit_both file key

section Comparison

variable {plan : Plan} {l : LedgerId} {ns : Namespace} {keys : List Key}

theorem spares_beside :
    (upToCounts plan l ns keys).tracing.Spares false (beside plan.globalName l ns) where
  name x hx hown := by simp [beside, upToCounts, tracingOf, hown.2] at hx
  load x hx := by
    have hload : (beside plan.globalName l ns).load x = true := hx
    rcases Bool.or_eq_true_iff.1 hload with hne | hcounters
    · exact .inl fun hown ↦ bne_iff_ne.1 hne hown.2
    · exact .inr (of_decide_eq_true (p := Counters plan.globalName l ns) hcounters)
  node _ _ := { entered := nofun, took := nofun }

theorem sameButCode_of_alike {o o' : Object} (h : (upToCounts plan l ns keys).AlikeObjects o o') :
    SameButCode o o' := by
  cases h with
  | list => exact .same _
  | tuple => exact .same _
  | exception => exact .same _
  | function h =>
    cases h
    exact .code _ _

/-- States that match are not told apart. -/
theorem indistinct_of_matched {s s' : Program.State} (h : (upToCounts plan l ns keys).Matched s s')
    (final : Outcome) :
    Indistinct plan.globalName plan.filename keys l ⟨final, s.globals, s.toMemory, s.history⟩
      ⟨final, s'.globals, s'.toMemory, s'.history⟩ where
  outcome_eq := rfl
  globals_eq x hx := h.globals_eq x (.inl fun hown ↦ hx hown.2)
  heap ref := by
    rcases h.heap.cases ref with ⟨hr, hr'⟩ | ⟨o, o', hr, hr', ho⟩
    · rw [hr, hr']
      exact .none
    · rw [hr, hr']
      exact .some (sameButCode_of_alike ho)
  frames_eq := h.frames_eq
  others_eq := h.ledgers.others
  counts := h.ledger (fun _ _ hgrown ↦ hgrown) fun _ ↦ .refl _ _ _

end Comparison

/-- A run of a program and a run of it with counters go side by side. -/
theorem runs_alike_instrument (limits : Limits) {plan : Plan} {marks : Marks} {next j : NodeId} {place : Place}
    {body : List Node} {ignores : Field} {i : Instrumented}
    (htree : Identified next (.mk j .module place [.many body, ignores]))
    (hfits : blockFits (avoiding plan.globalName) (block body) = true) (hdebug : plan.globalName ≠ "__debug__")
    (hdoc : (docstring? body).isSome → plan.globalName ≠ "__doc__")
    (h : instrument plan marks next (.mk j .module place [.many body, ignores]) = .ok i) {b : Comparison}
    {labels : Event → Option Key → Prop} {reads : Prop} (hb : b.tracing = tracingOf plan labels reads)
    (hobey : Obey labels (roster plan marks (.mk j .module place [.many body, ignores])).tags)
    {globals globals' : Namespace} {m : Memory}
    (hstart : b.Matched { toMemory := m, globals } { toMemory := m, globals := globals' }) :
    ∃ (final : Outcome) (s s' : Program.State), b.Matched s s' ∧
      runWith limits (.mk j .module place [.many body, ignores]) globals m =
        ⟨final, s.globals, s.toMemory, s.history⟩ ∧
      runWith limits i.tree globals' m = ⟨final, s'.globals, s'.toMemory, s'.history⟩ := by
  obtain ⟨n, hwoven, htree', -⟩ := instrument_spec htree h
  obtain ⟨ss, hprogram, hss⟩ := ofTree?_woven reads hdebug hwoven hobey hfits .start
  rw [← htree'] at hprogram
  rw [← hb] at hss
  refine Comparison.runs_alike limits rfl hprogram (fun hsome hown ↦ hdoc hsome ?_) hss hstart
  rw [hown.2, hb]
  rfl

/-- The tags of a tree give keys of the record. -/
theorem obey_roster (plan : Plan) (marks : Marks) (tree : Node) :
    Obey (fun _ key ↦ ∀ k, key = some k → k ∈ (roster plan marks tree).record.keys)
      (roster plan marks tree).tags := by
  have henrols := enrols_roster plan marks tree
  rintro (⟨event, key⟩ | i) htag
  · rintro k rfl
    have hk : k ∈ keysOf (roster plan marks tree).tags := List.mem_filterMap.2 ⟨_, htag, rfl⟩
    rw [henrols.keys_eq]
    exact List.mem_append_right _ (henrols.keys.subset hk)
  · exact ⟨nofun, nofun⟩

/-- A module with one statement. -/
def oneAssignment : Node :=
  .mk 0 .module {} [.many
    [.mk 1 (.plain .assign) (placeAt 1 0)
      [.many [.mk 2 (.plain .name) (placeAt 1 0) [.text "x", .child (.mk 3 (.plain .store) {} [])]],
        .child (.mk 4 (.plain .constant) (placeAt 1 4) [.constant (.int 1), .none]), .none]],
    .many []]

/-- A function that looks at the usual variable of counters. -/
def countersGetter : Closure :=
  { id := 0, name := "f", fullName := "f", params := [], defaults := [], locals := [], globals := [], env := [],
    body := .expr (.name "__countcov__") }

def usedMemory : Memory := { heap := #[.function countersGetter], ledgers := #[{}] }

def usedVariables : Namespace := OrderedMap.put {} "__countcov__" (.ledger 0)

end Coverage.Pass
