import Coverage.Proofs.Simulation.Exec
import Coverage.Run

/-!
# Runs side by side

A run of a program and a run of its traced form that start with the same variables, up to that of the counters, and
with the same memory, up to a ledger, end alike, in states that match. The functions that are there already when they
start have to leave the variable of counters alone, if there are counters.
-/

namespace Coverage.Program

/-- The values that are there when a program starts. -/
inductive Held (ns : Namespace) (m : Memory) : Value → Prop
  | global {x v} (h : ns.get? x = some v) : Held ns m v
  | framed {frame : Nat} {vars x v} (hframe : m.frames[frame]? = some vars) (h : vars.get? x = some v) : Held ns m v
  | part {r : Ref} {o v} (ho : m.heap[r]? = some o) (h : v ∈ o.parts) : Held ns m v

theorem Held.of_erase {ns : Namespace} {x : String} {m : Memory} {v : Value} (h : Held (ns.erase x) m v) :
    Held ns m v := by
  cases h with
  | global h =>
    rw [OrderedMap.get?_erase] at h
    split at h
    · cases h
    · exact .global h
  | framed hframe h => exact .framed hframe h
  | part ho h => exact .part ho h

/-- Every function in memory keeps to an allowance. -/
def Memory.FunctionsFit (m : Memory) (a : Allowed) : Prop :=
  ∀ (r : Ref) (f : Closure), m.heap[r]? = some (.function f) → f.fits a = true

/-- What a run of a module leaves behind. -/
theorem runWith_of_program (limits : Limits) {tree : Syntax.Node} {p : Program} (h : Program.ofTree? tree = some p)
    (globals : Namespace) (m : Memory) :
    runWith limits tree globals m =
      let ran := outcome (p.run limits) { toMemory := m, globals }
      ⟨.ofResult ran.1, ran.2.globals, ran.2.toMemory, ran.2.history⟩ := by
  rw [runWith, runTree, h]
  rfl

/-- A variable with which a module starts is given or has a text for its value. -/
theorem get?_setting {file : String} {ns : Namespace} {x : String} {v : Value}
    (h : (Run.setting file ns).get? x = some v) : ns.get? x = some v ∨ ∃ text, v = .str text := by
  have hbind (y : String) (w : Value) (ns : Namespace) (h : (Run.bindNew y w ns).get? x = some v) :
      ns.get? x = some v ∨ v = w := by
    unfold Run.bindNew at h
    split at h
    · exact .inl h
    · rw [OrderedMap.get?_put] at h
      split at h
      · exact .inr (Option.some.inj h).symm
      · exact .inl h
  rcases hbind _ _ _ h with h | rfl
  · rcases hbind _ _ _ h with h | rfl
    · exact .inl h
    · exact .inr ⟨_, rfl⟩
  · exact .inr ⟨_, rfl⟩

/-- A variable that is given keeps its value. -/
theorem get?_setting_of_some {file : String} {ns : Namespace} {x : String} {v : Value} (h : ns.get? x = some v) :
    (Run.setting file ns).get? x = some v := by
  have hbind (y : String) (w : Value) (ns : Namespace) (h : ns.get? x = some v) :
      (Run.bindNew y w ns).get? x = some v := by
    unfold Run.bindNew
    split
    next => exact h
    next hy =>
      have hne : x ≠ y := by
        rintro rfl
        simp [OrderedMap.contains, h] at hy
      rw [OrderedMap.get?_put_of_ne _ _ hne, h]
  exact hbind _ _ _ (hbind _ _ _ h)

namespace Comparison

variable {b : Comparison} {all : Bool} {a : Allowed}

theorem alikeClosures_self (spares : b.tracing.Spares all a) (still : b.tracing.Still all a) {f : Closure}
    (hdefaults : ∀ v ∈ f.defaults, b.Clean v) (hf : (all || f.fits a) = true) : b.AlikeClosures f f := by
  simp only [Closure.fits, Bool.or_and_distrib_left, Bool.and_eq_true] at hf
  obtain ⟨⟨⟨hnode, hlocals⟩, henv⟩, hbody⟩ := hf
  have hfree : Free b.Own f.env := by
    intro scope hscope
    rw [Bool.or_eq_true] at henv
    exact spares.names (Bool.or_eq_true_iff.2 (henv.imp_right fun hall ↦ List.all_eq_true.1 hall scope hscope))
  exact .intro (traced_code_self spares still hnode f.body hbody) hdefaults (spares.names hlocals) hfree

theorem alikeObjects_self (spares : b.tracing.Spares all a) (still : b.tracing.Still all a) {o : Object}
    (hparts : ∀ v ∈ o.parts, b.Clean v) (ho : ∀ f, o = .function f → (all || f.fits a) = true) :
    b.AlikeObjects o o := by
  cases o with
  | list items => exact .list fun v hv ↦ hparts v (Array.mem_toList_iff.2 hv)
  | tuple items => exact .tuple fun v hv ↦ hparts v (Array.mem_toList_iff.2 hv)
  | exception cls args => exact .exception hparts
  | function f => exact .function (alikeClosures_self spares still hparts (ho f rfl))

theorem alikeLedgers_self {ledgers : Array Ledger} (hpresent : b.present → b.ledger < ledgers.size)
    (hledger : ∀ l, ledgers[b.ledger]? = some l → b.agree [] l l) : b.AlikeLedgers [] ledgers ledgers where
  present := hpresent
  others _ _ := rfl
  own := by
    cases hl : ledgers[b.ledger]? with
    | none => exact .none
    | some l => exact .some (hledger l hl)

/-- Where two runs start with the same, except for ledgers and the variable of counters. The one with counters has it,
and the other one has it if code may look at it or if it leads to the functions of the language. -/
theorem matched_prepare (spares : b.tracing.Spares all a) (still : b.tracing.Still all a)
    (huse : b.tracing.counts ∨ b.tracing.reads) (ns : Namespace) {m : Memory}
    (hclean : ∀ v, Held (ns.erase b.globalName) m v → b.Clean v) (hfunctions : all = true ∨ m.FunctionsFit a)
    {ledgers : Array Ledger} (hledgers : b.AlikeLedgers [] m.ledgers ledgers) (file : String) {globals : Namespace}
    (hglobals : ∀ x, x ≠ b.globalName → globals.get? x = (Run.setting file ns).get? x)
    (hbound : b.tracing.reads ∨ b.globalName = builtinsName → globals.get? b.globalName = some (.ledger b.ledger)) :
    b.Matched { toMemory := m, globals }
      { toMemory := { m with ledgers }, globals := Run.prepare file b.globalName b.ledger ns } where
  heap.size_eq := rfl
  heap.objects r := by
    change Option.Rel b.AlikeObjects m.heap[r]? m.heap[r]?
    cases hr : m.heap[r]? with
    | none => exact .none
    | some o =>
      refine .some (alikeObjects_self spares still (fun v hv ↦ hclean v (.part hr hv)) ?_)
      rintro f rfl
      exact Bool.or_eq_true_iff.2 (hfunctions.imp_right fun hfit ↦ hfit r f hr)
  frames_eq := rfl
  frames frame vars hframe x v hx := hclean v (.framed hframe hx)
  globals_eq x hx := by
    by_cases heq : x = b.globalName
    · have hreads : b.tracing.reads ∨ b.globalName = builtinsName :=
        hx.imp (fun hown ↦ huse.resolve_left fun counts ↦ hown ⟨counts, heq⟩) heq.symm.trans
      rw [heq, hbound hreads]
      exact OrderedMap.get?_put_self _ _ _
    · exact (OrderedMap.get?_put_of_ne _ _ heq).trans (hglobals x heq).symm
  globals x v hx hv := by
    by_cases heq : x = b.globalName
    · -- Without counters the variable of the ledger is one like the others.
      have hreads : b.tracing.reads := huse.resolve_left fun counts ↦ hx ⟨counts, heq⟩
      exact fun _ ↦ b.access hreads
    · rcases get?_setting ((hglobals x heq).symm.trans hv) with hv | ⟨text, rfl⟩
      · exact hclean v (.global ((OrderedMap.get?_erase_of_ne ns heq).trans hv))
      · exact clean_const _
  bound _ := OrderedMap.get?_put_self _ _ _
  read _ hreads := hbound (.inl hreads)
  handled_eq := rfl
  handled := by simp
  ledgers := hledgers

/-- Steps that end alike have the same outcome. -/
theorem Ends.outcome_eq {r r' : Except Halt Unit} (h : b.Ends (Same Any) r r') :
    Outcome.ofResult r' = Outcome.ofResult r := by
  cases h with
  | ok => rfl
  | raised => rfl
  | outOfFuel => rfl
  | stuck => rfl

/-- What holds of ledgers that agree holds of the ledgers in matched states. -/
theorem Matched.ledger {s s' : State} (h : b.Matched s s') {P : Ledger → Ledger → Prop}
    (hagree : ∀ own traced, b.agree s.history own traced → P own traced) (hnone : ¬b.present → P {} {}) :
    P (s.toMemory.ledger b.ledger) (s'.toMemory.ledger b.ledger) := by
  have hown := h.ledgers.own
  have hpresent : b.present → s.ledgers[b.ledger]? ≠ none := fun hp ↦ by simp [h.ledgers.present hp]
  unfold Memory.ledger
  generalize s.ledgers[b.ledger]? = own at hown hpresent ⊢
  generalize s'.ledgers[b.ledger]? = traced at hown ⊢
  cases hown with
  | none => exact hnone fun hp ↦ hpresent hp rfl
  | some hagrees => exact hagree _ _ hagrees

/-- A run of a program and a run of its traced form. -/
theorem runs_alike (limits : Limits) {tree tree' : Syntax.Node} {doc : Option String} {ss ss' : List Stmt}
    (htree : Program.ofTree? tree = some ⟨doc, ss⟩) (htree' : Program.ofTree? tree' = some ⟨doc, ss'⟩)
    (hdoc : doc.isSome → ¬b.Own "__doc__") (h : TracedBlock b.tracing ss ss')
    {globals globals' : Namespace} {m m' : Memory}
    (hstart : b.Matched { toMemory := m, globals } { toMemory := m', globals := globals' }) :
    ∃ (final : Outcome) (s s' : State), b.Matched s s' ∧
      runWith limits tree globals m = ⟨final, s.globals, s.toMemory, s.history⟩ ∧
      runWith limits tree' globals' m' = ⟨final, s'.globals, s'.toMemory, s'.history⟩ := by
  obtain ⟨hends, hmatched⟩ := sim_program limits hdoc h _ _ hstart
  have hrun := runWith_of_program limits htree globals m
  have hrun' := runWith_of_program limits htree' globals' m'
  simp only [hends.outcome_eq] at hrun hrun'
  exact ⟨_, _, _, hmatched, hrun, hrun'⟩

end Comparison

end Coverage.Program
