import Coverage.Proofs.Transparency

/-!
# Earlier counts only grow

What a ledger holds when a program starts has no influence on what the program does, and afterwards the ledger holds
the sum of what it held and of what the run counts. A run of an instrumented program counts keys of its own file only,
unless a function that is there when it starts counts others.
-/

namespace Coverage.Program

open Syntax

/-! ## Code without counters -/

section Uncounted

variable {t : Tracing}

mutual
/-- Where nothing is counted, code is traced by itself only. -/
theorem TracedExpr.eq (h : ¬t.counts) {e e' : Expr} : TracedExpr t e e' → e' = e
  | .const => rfl
  | .name _ => rfl
  | .arith hl hr => by rw [hl.eq h, hr.eq h]
  | .unary he => by rw [he.eq h]
  | .compare hf hr => by rw [hf.eq h, hr.eq h]
  | .logic ho => by rw [ho.eq h]
  | .ifElse ht hb ho => by rw [ht.eq h, hb.eq h, ho.eq h]
  | .call hf ha => by rw [hf.eq h, ha.eq h]
  | .lambda _ hd hb => by rw [hd.eq h, hb.eq h]
  | .list hi => by rw [hi.eq h]
  | .tuple hi => by rw [hi.eq h]
  | .collect _ hi hs hc => by rw [hi.eq h, hs.eq h, hc.eq h]
  | .item he hi => by rw [he.eq h, hi.eq h]
  | .attribute he => by rw [he.eq h]
  | .foreign => rfl

theorem TracedArm.eq (h : ¬t.counts) {event : Event} {e e' : Expr} : TracedArm t event e e' → e' = e
  | .bare _ he => he.eq h
  | .counted label _ => (h (t.counted label)).elim

theorem TracedExprs.eq (h : ¬t.counts) {es es' : List Expr} : TracedExprs t es es' → es' = es
  | .nil => rfl
  | .cons he hes => by rw [he.eq h, hes.eq h]

theorem TracedOperands.eq (h : ¬t.counts) {i : NodeId} {a : Nat} {es es' : List Expr} :
    TracedOperands t i a es es' → es' = es
  | .nil => rfl
  | .cons he hes => by rw [he.eq h, hes.eq h]
end

theorem TracedOption.eq (h : ¬t.counts) {e e' : Option Expr} : TracedOption t e e' → e' = e
  | .none => rfl
  | .some he => by rw [he.eq h]

mutual
theorem TracedStmt.eq (h : ¬t.counts) {s s' : Stmt} : TracedStmt t s s' → s' = s
  | .expr he => by rw [he.eq h]
  | .assign _ hv => by rw [hv.eq h]
  | .augment _ hv => by rw [hv.eq h]
  | .ifElse ht hb ho => by rw [ht.eq h, hb.eq h, ho.eq h]
  | .whileLoop ht hb ho => by rw [ht.eq h, hb.eq h, ho.eq h]
  | .forLoop _ hs hb ho => by rw [hs.eq h, hb.eq h, ho.eq h]
  | .breakLoop => rfl
  | .continueLoop => rfl
  | .pass => rfl
  | .giveBack hv => by rw [hv.eq h]
  | .define _ _ hd hb => by rw [hd.eq h, hb.eq h]
  | .global _ => rfl
  | .raise he => by rw [he.eq h]
  | .attempt hb hh ho hf => by rw [hb.eq h, hh.eq h, ho.eq h, hf.eq h]
  | .choose hs hc => by rw [hs.eq h, hc.eq h]
  | .future _ => rfl
  | .guarded hm hb => by rw [hm.eq h, hb.eq h]
  | .foreign => rfl

theorem TracedBlock.eq (h : ¬t.counts) {ss ss' : List Stmt} : TracedBlock t ss ss' → ss' = ss
  | .nil => rfl
  | .bare _ hs hss => by rw [hs.eq h, hss.eq h]
  | .counted label _ _ => (h (t.counted label)).elim

theorem TracedClause.eq (h : ¬t.counts) {event : Event} {ss ss' : List Stmt} : TracedClause t event ss ss' → ss' = ss
  | .bare _ hss => hss.eq h
  | .counted label _ => (h (t.counted label)).elim

theorem TracedBody.eq (h : ¬t.counts) {event : Event} {ss ss' : List Stmt} : TracedBody t event ss ss' → ss' = ss
  | .clause hss => hss.eq h
  | .behind _ label _ => (h (t.counted label)).elim

theorem TracedTry.eq (h : ¬t.counts) {i : NodeId} {ss ss' : List Stmt} : TracedTry t i ss ss' → ss' = ss
  | .bare _ _ hss => hss.eq h
  | .counted label _ _ => (h (t.counted label)).elim

theorem TracedHandlers.eq (h : ¬t.counts) {hs hs' : List Handler} : TracedHandlers t hs hs' → hs' = hs
  | .nil => rfl
  | .cons ht _ hb hhs => by rw [ht.eq h, hb.eq h, hhs.eq h]

theorem TracedCases.eq (h : ¬t.counts) {i : NodeId} {a : Nat} {cs cs' : List Case} : TracedCases t i a cs cs' → cs' = cs
  | .nil _ => rfl
  | .fallback label => (h (t.counted label)).elim
  | .cons _ hg hb hcs => by rw [hg.eq h, hb.eq h, hcs.eq h]
end

theorem TracedCode.eq (h : ¬t.counts) {i : NodeId} {b b' : Body} : TracedCode t i b b' → b' = b
  | .block hss => by rw [hss.eq h]
  | .expr he => by rw [he.eq h]

end Uncounted

theorem Comparison.AlikeObjects.eq {b : Comparison} (h : ¬b.tracing.counts) {o o' : Object}
    (ho : b.AlikeObjects o o') : o' = o := by
  cases ho with
  | list => rfl
  | tuple => rfl
  | exception => rfl
  | function hf =>
    cases hf with
    | intro code => rw [code.eq h]

/-! ## Two runs -/

def Memory.withLedger (m : Memory) (l : LedgerId) (ledger : Ledger) : Memory :=
  { m with ledgers := m.ledgers.setIfInBounds l ledger }

/-- Two runs end alike and leave the same behind, up to the counts of one ledger, which are by given ones higher. -/
structure SameButCounts (l : LedgerId) (earlier : Ledger) (r r' : Ran) : Prop where
  outcome_eq : r'.outcome = r.outcome
  globals_eq : ∀ x, r'.globals.get? x = r.globals.get? x
  heap_eq : r'.memory.heap = r.memory.heap
  frames_eq : r'.memory.frames = r.memory.frames
  others_eq : ∀ l' : LedgerId, l' ≠ l → r'.memory.ledgers[l']? = r.memory.ledgers[l']?
  counts : ∀ file key,
    (r'.memory.ledger l).count file key = earlier.count file key + (r.memory.ledger l).count file key

/-- Two runs of one program are compared by what their ledgers held beforehand. -/
def onTop (globalName : String) (l : LedgerId) (m : Memory) : Comparison where
  tracing :=
    { globalName, file := "", labels := fun _ key ↦ key = none, reads := True, counts := False, counted := nofun }
  ledger := l
  present := l < m.ledgers.size
  shared := True
  access := id
  agree _ own ledger := ∀ file key, ledger.count file key = (m.ledger l).count file key + own.count file key
  skip _ h := h
  count label := nomatch label
  hit file key _ h f k := by
    rw [Ledger.count_hit_eq, Ledger.count_hit_eq, h]
    split <;> omega

section OnTop

variable {globalName : String} {l : LedgerId} {m : Memory}

theorem spares_onTop (a : Allowed) : (onTop globalName l m).tracing.Spares true a where
  name _ _ hown := hown.1
  load _ _ := .inr trivial
  node _ _ := ⟨rfl, fun _ ↦ rfl⟩

/-- Any tree runs in two states that match. -/
theorem sim_runTree (limits : Limits) (tree : Node) :
    (onTop globalName l m).Sim (Comparison.Same Comparison.Any) (runTree limits tree) (runTree limits tree) := by
  unfold runTree
  split
  next p _ =>
    exact Comparison.sim_program limits (fun _ hown ↦ hown.1)
      (traced_block_self (spares_onTop (avoiding globalName)) (fun _ _ ↦ rfl) p.body rfl)
  next => exact Comparison.keeps_fail _

/-- An emptied ledger, beside the one with earlier counts. -/
theorem alikeLedgers_onTop : (onTop globalName l m).AlikeLedgers [] (m.withLedger l {}).ledgers m.ledgers where
  present hl := by rwa [Memory.withLedger, Array.size_setIfInBounds]
  others l' hl' := by
    have hne : l ≠ l' := Ne.symm hl'
    rw [Memory.withLedger, Array.getElem?_setIfInBounds_ne hne]
  own := by
    change Option.Rel _ (m.ledgers.setIfInBounds l {})[l]? m.ledgers[l]?
    rw [Array.getElem?_setIfInBounds_self]
    by_cases hl : l < m.ledgers.size
    · rw [if_pos hl, Array.getElem?_eq_getElem hl]
      refine .some fun f k ↦ ?_
      rw [Ledger.count_empty, Int.add_zero, Memory.ledger, Array.getElem?_eq_getElem hl, Option.getD_some]
    · rw [if_neg hl, Array.getElem?_eq_none (Nat.le_of_not_lt hl)]
      exact .none

end OnTop

/-- A run with a ledger that holds something, and a run with the same ledger when it is empty. -/
theorem sameButCounts_execute (limits : Limits) (tree : Node) (file globalName : String) (l : LedgerId)
    (ns : Namespace) (m : Memory) :
    SameButCounts l (m.ledger l) (execute limits tree file globalName l ns (m.withLedger l {}))
      (execute limits tree file globalName l ns m) := by
  have hstart := Comparison.matched_prepare (b := onTop globalName l m) (spares_onTop (avoiding globalName))
    (fun _ _ ↦ rfl) (.inr trivial) ns (m := m.withLedger l {}) (fun _ _ _ ↦ trivial) (.inl rfl)
    alikeLedgers_onTop file (fun _ ↦ OrderedMap.get?_put_of_ne _ _) fun _ ↦ OrderedMap.get?_put_self _ _ _
  obtain ⟨hends, hmatched⟩ := sim_runTree limits tree _ _ hstart
  constructor
  case outcome_eq => exact hends.outcome_eq
  case globals_eq => exact fun x ↦ hmatched.globals_eq x (.inl fun hown ↦ hown.1)
  case heap_eq =>
    refine Array.ext_getElem? fun r ↦ ?_
    rcases hmatched.heap.cases r with ⟨hr, hr'⟩ | ⟨o, o', hr, hr', ho⟩
    · exact hr'.trans hr.symm
    · exact hr'.trans ((congrArg some (ho.eq id)).trans hr.symm)
  case frames_eq => exact hmatched.frames_eq
  case others_eq => exact hmatched.ledgers.others
  case counts =>
    refine hmatched.ledger (fun _ _ h ↦ h) fun hl f k ↦ ?_
    have hnone : m.ledgers[l]? = none := Array.getElem?_eq_none (Nat.le_of_not_lt hl)
    simp [Memory.ledger, hnone]

end Coverage.Program

namespace Coverage.Pass

open Syntax Program

/-! ## Other files -/

/-- What is there when a program starts gives no access to a ledger, other than by the variable of counters, and no
function uses that variable. -/
structure Withheld (globalName : String) (l : LedgerId) (ns : Namespace) (m : Memory) : Prop where
  values : ∀ v, Held (ns.erase globalName) m v → v.ledger? ≠ some l
  functions : m.FunctionsFit (avoiding globalName)

/-- A run with counters is compared by what the ledger holds for another file. -/
def elsewhere (plan : Plan) (l : LedgerId) (m : Memory) {other : String} (hother : other ≠ plan.filename) :
    Comparison where
  tracing := tracingOf plan (fun _ _ ↦ True) False
  ledger := l
  present := l < m.ledgers.size
  shared := False
  access := id
  agree _ _ traced := traced.forFile other = (m.ledger l).forFile other
  skip _ h := h
  count _ h := (Ledger.forFile_hit ..).trans ((if_neg hother).trans h)
  hit _ _ use := use.elim

theorem spares_elsewhere {plan : Plan} {l : LedgerId} {m : Memory} {other : String} {hother : other ≠ plan.filename} :
    (elsewhere plan l m hother).tracing.Spares false (avoiding plan.globalName) where
  name x hx hown := by simp [avoiding, elsewhere, tracingOf, hown.2] at hx
  load x hx := .inl fun hown ↦ by simp [avoiding, elsewhere, tracingOf, hown.2] at hx
  node _ _ := ⟨trivial, fun _ ↦ trivial⟩

/-- The counts of other files stay, if there is nothing that could change them. -/
theorem forFile_execute_instrument (limits : Limits) {plan : Plan} {marks : Marks} {next j : NodeId} {place : Place}
    {body : List Node} {ignores : Field} {i : Instrumented}
    (htree : Identified next (.mk j .module place [.many body, ignores]))
    (hfits : blockFits (avoiding plan.globalName) (block body) = true) (hdebug : plan.globalName ≠ "__debug__")
    (hdoc : (docstring? body).isSome → plan.globalName ≠ "__doc__")
    (h : instrument plan marks next (.mk j .module place [.many body, ignores]) = .ok i)
    (file : String) {l : LedgerId} {ns : Namespace} {m : Memory} (hm : Withheld plan.globalName l ns m) {other : String}
    (hother : other ≠ plan.filename) :
    ((execute limits i.tree file plan.globalName l ns m).memory.ledger l).forFile other =
      (m.ledger l).forFile other := by
  have hobey : Obey (fun _ _ ↦ True) (roster plan marks (.mk j .module place [.many body, ignores])).tags := by
    rintro (_ | _) _
    · trivial
    · exact ⟨trivial, fun _ ↦ trivial⟩
  have hledger : ∀ l', m.ledgers[l]? = some l' → l'.forFile other = (m.ledger l).forFile other := by
    intro l' hl
    rw [Memory.ledger, hl, Option.getD_some]
  have hstart := Comparison.matched_prepare (b := elsewhere plan l m hother) spares_elsewhere (fun _ _ ↦ trivial)
    (.inl trivial) ns (fun v hv hledger ↦ hm.values v hv hledger) (.inr hm.functions)
    (Comparison.alikeLedgers_self id hledger) file (fun _ ↦ OrderedMap.get?_put_of_ne _ _)
    fun _ ↦ OrderedMap.get?_put_self _ _ _
  obtain ⟨final, s, s', hmatched, -, hrun'⟩ :=
    runs_alike_instrument limits htree hfits hdebug hdoc h rfl hobey hstart
  change execute limits _ file plan.globalName l ns m = _ at hrun'
  rw [hrun']
  refine hmatched.ledger (P := fun _ traced ↦ traced.forFile other = (m.ledger l).forFile other) (fun _ _ h ↦ h) ?_
  intro hl
  rw [Memory.ledger, Array.getElem?_eq_none (Nat.le_of_not_lt hl), Option.getD_none]

/-- Earlier counts have no influence on a run of an instrumented program and are added to. The counts of another file
stay, if nothing that is there beforehand has access to them. -/
theorem runs_only_add (limits : Limits) {plan : Plan} {marks : Marks} {next j : NodeId} {place : Place}
    {body : List Node} {ignores : Field} {i : Instrumented}
    (htree : Identified next (.mk j .module place [.many body, ignores]))
    (hfits : blockFits (avoiding plan.globalName) (block body) = true)
    (h : instrument plan marks next (.mk j .module place [.many body, ignores]) = .ok i)
    (file : String) (l : LedgerId) (ns : Namespace) (m : Memory) :
    let ran := execute limits i.tree file plan.globalName l ns m
    SameButCounts l (m.ledger l) (execute limits i.tree file plan.globalName l ns (m.withLedger l {})) ran ∧
      (plan.globalName ≠ "__debug__" → ((docstring? body).isSome → plan.globalName ≠ "__doc__") →
        Withheld plan.globalName l ns m → ∀ other, other ≠ plan.filename →
          (ran.memory.ledger l).forFile other = (m.ledger l).forFile other) := by
  refine ⟨sameButCounts_execute limits i.tree file plan.globalName l ns m, fun hdebug hdoc hm other hother ↦ ?_⟩
  exact forFile_execute_instrument limits htree hfits hdebug hdoc h file hm hother

def namingModule : Node :=
  .mk 0 .module {} [.many
    [.mk 1 (.plain .assign) (placeAt 1 0)
      [.many [.mk 2 (.plain .name) (placeAt 1 0) [.text "f", .child (.mk 3 (.plain .store) {} [])]],
        .child (.mk 4 .lambda (placeAt 1 4)
          [.child (.mk 5 (.plain .arguments) {} [.many [], .many [], .none, .many [], .many [], .none, .many []]),
            .child (.mk 6 (.plain .constant) (placeAt 1 12) [.constant (.int 1), .none])]), .none]],
    .many []]

def callingModule : Node :=
  .mk 0 .module {} [.many
    [.mk 1 (.plain .assign) (placeAt 1 0)
      [.many [.mk 2 (.plain .name) (placeAt 1 0) [.text "x", .child (.mk 3 (.plain .store) {} [])]],
        .child (.mk 4 (.plain .call) (placeAt 1 4)
          [.child (.mk 5 (.plain .name) (placeAt 1 4) [.text "f", .child (.mk 6 (.plain .load) {} [])]),
            .many [], .many []]), .none]],
    .many []]

/-- A function without counters. -/
def constantFunction : Closure :=
  { id := 4, name := "<lambda>", fullName := "<lambda>", params := [], defaults := [], locals := [], globals := [],
    env := [], body := .expr (.const (.int 1)) }

def countedMemory : Memory :=
  { heap := #[.function constantFunction]
    ledgers := #[(({} : Ledger).hit "b.py" "s1:0-1:1").hit "c.py" "s1:0-1:1"] }

def countedVariables : Namespace := OrderedMap.put {} "f" (.object 0)

/-- The function gives no access to the counters. -/
theorem withheld_countedMemory : Withheld "__countcov__" 0 countedVariables countedMemory where
  values v hv := by
    cases hv with
    | @global x _ hx =>
      rw [OrderedMap.get?_erase, countedVariables, OrderedMap.get?_put, OrderedMap.get?_empty] at hx
      split at hx
      · cases hx
      · split at hx
        · cases hx
          nofun
        · cases hx
    | framed hframe => cases hframe
    | @part r _ _ ho hpart =>
      cases r with
      | zero =>
        cases ho
        cases hpart
      | succ r => cases ho
  functions r f hr := by
    cases r with
    | zero =>
      cases hr
      decide
    | succ r => cases hr

/-- A program that calls a function without counters. -/
theorem runs_only_add_callingModule :
    ∃ i, instrument { filename := "b.py" } {} 7 callingModule = .ok i ∧
      let ran := execute ⟨10, 10⟩ i.tree "b.py" "__countcov__" 0 countedVariables countedMemory
      SameButCounts 0 (countedMemory.ledger 0)
          (execute ⟨10, 10⟩ i.tree "b.py" "__countcov__" 0 countedVariables (countedMemory.withLedger 0 {})) ran ∧
        (ran.memory.ledger 0).forFile "c.py" = (countedMemory.ledger 0).forFile "c.py" := by
  obtain ⟨i, h⟩ : ∃ i, instrument { filename := "b.py" } {} 7 callingModule = .ok i :=
    exists_ok_of_toBool (by decide +kernel)
  obtain ⟨hsame, hothers⟩ := runs_only_add ⟨10, 10⟩ ⟨by decide, by decide⟩ (by decide +kernel) h "b.py" 0
    countedVariables countedMemory
  exact ⟨i, h, hsame, hothers (by decide) (by decide) withheld_countedMemory "c.py" (by decide)⟩

/-- A function with counters of another file counts for that file when a program calls it. -/
theorem called_function_counts :
    (Program.ofTree? callingModule).all (fun p ↦ blockFits (avoiding "__countcov__") p.body) = true ∧
      ∃ i i', instrument { filename := "a.py" } {} 7 namingModule = .ok i ∧
        instrument { filename := "b.py" } {} 7 callingModule = .ok i' ∧
        let before := execute ⟨10, 10⟩ i.tree "a.py" "__countcov__" 0 {} { ledgers := #[{}] }
        let after := execute ⟨10, 10⟩ i'.tree "b.py" "__countcov__" 0 before.globals before.memory
        (before.memory.ledger 0).count "a.py" "f1:4-1:5" = 0 ∧
          (after.memory.ledger 0).count "a.py" "f1:4-1:5" = 1 := by
  refine ⟨by decide +kernel, ?_⟩
  have hcounts : (do
      let i ← (instrument { filename := "a.py" } {} 7 namingModule).toOption
      let i' ← (instrument { filename := "b.py" } {} 7 callingModule).toOption
      let before := execute ⟨10, 10⟩ i.tree "a.py" "__countcov__" 0 {} { ledgers := #[{}] }
      let after := execute ⟨10, 10⟩ i'.tree "b.py" "__countcov__" 0 before.globals before.memory
      return ((before.memory.ledger 0).count "a.py" "f1:4-1:5", (after.memory.ledger 0).count "a.py" "f1:4-1:5")) =
        some (0, 1) := by decide +kernel
  cases h : instrument { filename := "a.py" } {} 7 namingModule with
  | error stopped =>
    rw [h] at hcounts
    cases hcounts
  | ok i =>
    cases h' : instrument { filename := "b.py" } {} 7 callingModule with
    | error stopped =>
      rw [h, h'] at hcounts
      cases hcounts
    | ok i' =>
      rw [h, h'] at hcounts
      exact ⟨i, i', rfl, rfl, Prod.mk.inj (Option.some.inj hcounts)⟩

end Coverage.Pass
