import Coverage.Program.Eval
import Coverage.Proofs.Simulation.Operation

/-!
# Comparing expressions

Evaluating a traced expression does what evaluating the original does and counts what it has a counter for.
A counter finds its ledger, since no scope has a variable of the name that it uses.
-/

namespace Coverage.Program

/-! ## Counters -/

theorem Free.cons {own : String → Prop} {scope : Scope} {env : Env} (hscope : ∀ x ∈ scope.locals, ¬own x)
    (h : Free own env) : Free own (scope :: env) :=
  List.forall_mem_cons.2 ⟨hscope, h⟩

section Home

variable {own : String → Prop} {x : String} {env : Env}

theorem outerHome_of_free (hx : own x) (h : Free own env) : outerHome x env = .module := by
  induction env with
  | nil => rfl
  | cons scope env ih =>
    obtain ⟨hscope, hrest⟩ := List.forall_mem_cons.1 h
    have hlocal : x ∉ scope.locals := fun hmem ↦ hscope x hmem hx
    simp [outerHome, hlocal, ih hrest]

theorem home_of_free (hx : own x) (h : Free own env) : home x env = .module := by
  cases env with
  | nil => rfl
  | cons scope env =>
    obtain ⟨hscope, hrest⟩ := List.forall_mem_cons.1 h
    have hlocal : x ∉ scope.locals := fun hmem ↦ hscope x hmem hx
    simp [home, hlocal, outerHome_of_free hx hrest]

end Home

theorem outcome_eval_const (c : Context) (env : Env) (k : Literal) (s : State) :
    outcome ((Expr.const k).eval c env) s = (.ok (.const k), s) := by
  rw [Expr.eval]
  rfl

theorem outcome_evalAll_texts (c : Context) (env : Env) (texts : List String) (s : State) :
    outcome (evalAll c env (texts.map fun t ↦ .const (.str t))) s = (.ok (texts.map .str), s) := by
  induction texts with
  | nil => rfl
  | cons t texts ih =>
    rw [List.map_cons, evalAll, outcome_bind_of_ok (outcome_eval_const ..), outcome_bind_of_ok ih]
    rfl

namespace Comparison

variable {b : Comparison} {c : Context} {env : Env} {s : State}

/-- A call of the ledger applies its method to texts. -/
theorem outcome_eval_call (counts : b.tracing.counts) (hfree : Free b.Own env)
    (bound : s.globals.get? b.globalName = some (.ledger b.ledger)) {method : String} {v : Value}
    (hmethod : outcome (attributeOf (.ledger b.ledger) method) s = (.ok v, s)) (keys : List Key) :
    outcome ((b.tracing.call method keys).eval c env) s =
      outcome (c.apply v ((b.tracing.file :: keys).map .str)) s := by
  have hload : outcome (load env b.globalName) s = (.ok (.ledger b.ledger), s) := by
    rw [load, outcome_bind_of_ok (outcome_get s), home_of_free ⟨counts, rfl⟩ hfree]
    simp [bound]
  have hattribute : outcome ((Expr.attribute (.name b.globalName) method).eval c env) s = (.ok v, s) := by
    rw [Expr.eval, outcome_bind_of_ok (by rw [Expr.eval]; exact hload), hmethod]
  rw [Tracing.call, Expr.eval, outcome_bind_of_ok hattribute, outcome_bind_of_ok (outcome_evalAll_texts ..)]

theorem outcome_eval_hit (counts : b.tracing.counts) (hfree : Free b.Own env)
    (bound : s.globals.get? b.globalName = some (.ledger b.ledger)) (key : Key) :
    outcome ((b.tracing.call "hit" [key]).eval c env) s = outcome (b.mark key >>= fun _ ↦ pure .none) s :=
  outcome_eval_call counts hfree bound (v := .hit b.ledger) rfl [key]

theorem outcome_eval_guard (counts : b.tracing.counts) (hfree : Free b.Own env)
    (bound : s.globals.get? b.globalName = some (.ledger b.ledger)) (ok error : Key) :
    outcome ((b.tracing.call "guard" [ok, error]).eval c env) s =
      (.ok (.guardOf b.ledger b.tracing.file ok error), s) :=
  outcome_eval_call counts hfree bound (v := .guard b.ledger) rfl [ok, error]

/-- The variable of counters, where code may look at it. -/
theorem keeps_loadLedger (counts : b.tracing.counts) (hreads : b.tracing.reads) (hfree : Free b.Own env) :
    b.Keeps b.Clean (load env b.globalName) := by
  refine keeps_get (fun s s' hm ↦ ?_) fun s s' hm ↦ ?_
  · rw [home_of_free ⟨counts, rfl⟩ hfree]
    simp only [hm.bound counts, hm.read counts hreads]
  · rw [home_of_free ⟨counts, rfl⟩ hfree]
    simp only [hm.read counts hreads]
    exact keeps_pure fun _ ↦ b.access hreads

/-! ## Calls and sequences -/

/-- The contexts of the two runs call functions and their traced forms alike. -/
structure AlikeContexts (b : Comparison) (c c' : Context) : Prop where
  rounds_eq : c'.rounds = c.rounds
  call : ∀ {f f' : Closure} {args : List Value}, b.AlikeClosures f f' → (∀ v ∈ args, b.Clean v) →
    b.Sim (Same b.Clean) (c.call f args) (c'.call f' args)

variable {c' : Context}

/-- Calls of one function with the same arguments. -/
theorem AlikeContexts.apply (hc : b.AlikeContexts c c') {f : Value} (hf : b.Clean f) {args : List Value}
    (hargs : ∀ v ∈ args, b.Clean v) : b.Sim (Same b.Clean) (c.apply f args) (c'.apply f args) := by
  cases f with
  | builtin f => exact keeps_builtin f args
  | cls cls => exact keeps_allocate (.exception hargs)
  | append r => exact keeps_appendItem r hargs
  | hit l =>
    unfold Context.apply
    dsimp only
    split
    next file key =>
      have use : l = b.ledger → b.shared := fun hl ↦ hf (congrArg some hl)
      exact (keeps_hit use file key).andThen fun _ _ ↦ keeps_pure (clean_const _)
    next => exact sim_stuck
  | guard l =>
    unfold Context.apply
    dsimp only
    split
    next => exact sim_pure ⟨hf⟩
    next => exact sim_stuck
  | _ =>
    -- Only functions are called through the contexts.
    refine Sim.bind (sim_look fun h h' hh ↦ hh.function? _) fun r r' hr ↦ ?_
    cases hr with
    | none => exact keeps_failType _ .notCallable
    | some hclosures => exact hc.call hclosures hargs

theorem keeps_advance {target : String} (hx : ¬b.Own target) (env : Env) (source : Value) (i : Nat) :
    b.Keeps Any (advance env target source i) := by
  refine keeps_get (fun s s' hm ↦ ?_) fun s s' hm ↦ ?_
  · simp only [hm.heap.item?_eq]
  · split
    next item hitem =>
      have hclean : b.Clean item := hm.heap.holds.item? clean_const hitem
      exact (keeps_bind hx hclean env).andThen fun _ _ ↦ keeps_pure trivial
    next => exact keeps_pure trivial

theorem keeps_checkIterable (v : Value) : b.Keeps Any (checkIterable v) := by
  refine Keeps.andThen (keeps_look fun h h' hh ↦ by rw [hh.length?_eq]) fun r _ ↦ ?_
  split
  next => exact keeps_failType v .notIterable
  next => exact keeps_pure trivial

theorem sim_collectItems {more : Nat → Step Bool} {keep keep' : Step Bool} {item item' : Step Value}
    (hmore : ∀ i, b.Keeps Any (more i)) (hkeep : b.Sim (Same Any) keep keep')
    (hitem : b.Sim (Same b.Clean) item item') (fuel : Nat) :
    ∀ (i : Nat) {items : Array Value}, (∀ v ∈ items, b.Clean v) →
      b.Sim (Same fun items ↦ ∀ v ∈ items, b.Clean v) (collectItems more keep item fuel i items)
        (collectItems more keep' item' fuel i items) := by
  induction fuel with
  | zero => exact fun i items hitems ↦ sim_outOfFuel
  | succ fuel ih =>
    intro i items hitems
    refine Sim.andThen (hmore i) fun another _ ↦ ?_
    cases another with
    | false => exact sim_pure ⟨hitems⟩
    | true =>
      refine hkeep.andThen fun kept _ ↦ ?_
      cases kept with
      | false => exact ih (i + 1) hitems
      | true =>
        refine hitem.andThen fun v hv ↦ ih (i + 1) fun w hw ↦ ?_
        rcases Array.mem_push.1 hw with hw | rfl
        · exact hitems w hw
        · exact hv

/-! ## Expressions -/

/-- An `or` whose first operand counts goes on to the second. -/
theorem outcome_eval_counted (counts : b.tracing.counts) (hfree : Free b.Own env)
    (bound : s.globals.get? b.globalName = some (.ledger b.ledger)) (j : Syntax.NodeId) (key : Key) (e : Expr) :
    outcome ((Expr.logic j .or [b.tracing.call "hit" [key], e]).eval c env) s =
      outcome (do
        record (.took j 0)
        b.mark key
        record (.took j 1)
        e.eval c env) s := by
  have hcall (t : State) (ht : t.globals.get? b.globalName = some (.ledger b.ledger)) :
      outcome ((b.tracing.call "hit" [key]).eval c env) t = (.ok .none, (outcome (b.mark key) t).2) :=
    outcome_eval_hit counts hfree ht key
  have hlast : evalLogic c env j .or (0 + 1) [e] = record (.took j 1) >>= fun _ ↦ e.eval c env := by
    rw [evalLogic]
    simp
  rw [Expr.eval, evalLogic, outcome_bind_of_ok (outcome_record ..), outcome_bind_of_ok (outcome_record ..),
    outcome_bind_of_ok (hcall { s with history := .took j 0 :: s.history } bound),
    outcome_bind_of_ok (x := b.mark key) rfl]
  exact congrArg (outcome · _) hlast

mutual
/-- An expression and a tracing of it. -/
theorem sim_eval (hc : b.AlikeContexts c c') {e e' : Expr} : TracedExpr b.tracing e e' →
    ∀ {env : Env}, Free b.Own env → b.Sim (Same b.Clean) (e.eval c env) (e'.eval c' env)
  | .const, _, _ => by
    rw [Expr.eval, Expr.eval]
    exact sim_pure ⟨clean_const _⟩
  | .name (x := x) hx, env, hfree => by
    rw [Expr.eval, Expr.eval]
    by_cases hown : b.Own x
    · obtain ⟨counts, rfl⟩ := hown
      exact keeps_loadLedger counts (hx.resolve_left fun hne ↦ hne ⟨counts, rfl⟩) hfree
    · exact keeps_load hown env
  | .arith hl hr, _, hfree => by
    rw [Expr.eval, Expr.eval]
    exact (sim_eval hc hl hfree).andThen fun v hv ↦ (sim_eval hc hr hfree).andThen fun w hw ↦ keeps_arith _ _ v w
  | .unary he, _, hfree => by
    rw [Expr.eval, Expr.eval]
    exact (sim_eval hc he hfree).andThen fun v hv ↦ keeps_unary _ v
  | .compare hf hr, _, hfree => by
    rw [Expr.eval, Expr.eval]
    exact (sim_eval hc hf hfree).andThen fun v hv ↦ sim_evalChain hc hr hfree hv
  | .logic ho, _, hfree => by
    rw [Expr.eval, Expr.eval]
    exact sim_evalLogic hc ho hfree
  | .ifElse ht hb ho, _, hfree => by
    rw [Expr.eval, Expr.eval]
    refine (sim_eval hc ht hfree).andThen fun v hv ↦ Sim.andThen (keeps_truth v) fun r _ ↦ ?_
    cases r with
    | true => exact sim_arm hc hb hfree
    | false => exact sim_arm hc ho hfree
  | .call hf ha, _, hfree => by
    rw [Expr.eval, Expr.eval]
    exact (sim_eval hc hf hfree).andThen fun v hv ↦ (sim_evalAll hc ha hfree).andThen fun args hargs ↦
      hc.apply hv hargs
  | .lambda hp hd hb, _, hfree => by
    rw [Expr.eval, Expr.eval]
    exact (sim_evalAll hc hd hfree).andThen fun args hargs ↦
      sim_allocate (.function (.intro (.expr hb) hargs hp hfree))
  | .list hi, _, hfree => by
    rw [Expr.eval, Expr.eval]
    exact (sim_evalAll hc hi hfree).andThen fun items hitems ↦ keeps_allocate_list (by simpa using hitems)
  | .tuple hi, _, hfree => by
    rw [Expr.eval, Expr.eval]
    exact (sim_evalAll hc hi hfree).andThen fun items hitems ↦ keeps_allocate_tuple (by simpa using hitems)
  | .collect hx hi hs hcond, env, hfree => by
    rw [Expr.eval, Expr.eval]
    refine (sim_eval hc hs hfree).andThen fun v hv ↦ Sim.andThen (keeps_checkIterable v) fun _ _ ↦ ?_
    refine Sim.andThen (keeps_pushFrame ?_) fun frame _ ↦ ?_
    · exact Namespace.Holds.empty
    · have hfree' : Free b.Own (⟨fullName env "<listcomp>", frame, [_], []⟩ :: env) :=
        Free.cons (by simpa using hx) hfree
      dsimp only
      rw [hc.rounds_eq]
      refine Sim.andThen ?_ fun items hitems ↦ keeps_allocate_list hitems
      exact sim_collectItems (keeps_advance hx _ v) (sim_evalConditions hc hcond hfree') (sim_eval hc hi hfree') _ 0
        (by simp)
  | .item he hi, _, hfree => by
    rw [Expr.eval, Expr.eval]
    exact (sim_eval hc he hfree).andThen fun v hv ↦ (sim_eval hc hi hfree).andThen fun w hw ↦ keeps_itemAt v w
  | .attribute he, _, hfree => by
    rw [Expr.eval, Expr.eval]
    exact (sim_eval hc he hfree).andThen fun v hv ↦ keeps_attributeOf hv _
  | .foreign, _, _ => by
    rw [Expr.eval, Expr.eval]
    exact sim_stuck

/-- An expression whose evaluation is an event. -/
theorem sim_arm (hc : b.AlikeContexts c c') {event : Event} {e e' : Expr} : TracedArm b.tracing event e e' →
    ∀ {env : Env}, Free b.Own env →
      b.Sim (Same b.Clean) (record event >>= fun _ ↦ e.eval c env) (record event >>= fun _ ↦ e'.eval c' env)
  | .bare label he, _, hfree => ((sim_eval hc he hfree).record_right).record_left label
  | .counted label he, _, hfree => by
    refine Sim.record_right (Sim.of_bound (b.tracing.counted label) ?_ fun s bound ↦
      outcome_eval_counted (b.tracing.counted label) hfree bound _ _ _)
    exact (((sim_eval hc he hfree).record_right).record_mark label).record_right

theorem sim_evalAll (hc : b.AlikeContexts c c') {es es' : List Expr} : TracedExprs b.tracing es es' →
    ∀ {env : Env}, Free b.Own env →
      b.Sim (Same fun vs ↦ ∀ v ∈ vs, b.Clean v) (evalAll c env es) (evalAll c' env es')
  | .nil, _, _ => by
    rw [evalAll, evalAll]
    exact sim_pure ⟨by simp⟩
  | .cons he hes, _, hfree => by
    rw [evalAll, evalAll]
    exact (sim_eval hc he hfree).andThen fun v hv ↦ (sim_evalAll hc hes hfree).andThen fun vs hvs ↦
      sim_pure ⟨List.forall_mem_cons.2 ⟨hv, hvs⟩⟩

theorem sim_evalChain (hc : b.AlikeContexts c c') {es es' : List Expr} : TracedExprs b.tracing es es' →
    ∀ {env : Env}, Free b.Own env → ∀ {v : Value}, b.Clean v → ∀ {relations : List Relation},
      b.Sim (Same b.Clean) (evalChain c env v relations es) (evalChain c' env v relations es')
  | .nil, _, _, v, _, relations => by
    cases relations <;> simp only [evalChain] <;> exact sim_pure ⟨clean_const _⟩
  | .cons he hes, _, hfree, v, _, [] => by
    simp only [evalChain]
    exact sim_pure ⟨clean_const _⟩
  | .cons he hes, _, hfree, v, _, r :: relations => by
    rw [evalChain, evalChain]
    refine (sim_eval hc he hfree).andThen fun w hw ↦ Sim.andThen (keeps_relation r v w) fun holds _ ↦ ?_
    cases holds with
    | false => exact sim_pure ⟨clean_const _⟩
    | true =>
      rw [if_pos rfl, if_pos rfl, hes.isEmpty_eq]
      split
      next => exact sim_pure ⟨clean_const _⟩
      next => exact sim_evalChain hc hes hfree hw

/-- The operands of a node, of which each is an arm. -/
theorem sim_evalLogic (hc : b.AlikeContexts c c') {i : Syntax.NodeId} {n : Nat} {es es' : List Expr} :
    TracedOperands b.tracing i n es es' → ∀ {env : Env}, Free b.Own env → ∀ {op : Logic},
      b.Sim (Same b.Clean) (evalLogic c env i op n es) (evalLogic c' env i op n es')
  | .nil, _, _, _ => by
    rw [evalLogic, evalLogic]
    exact sim_stuck
  | .cons he hes, _, hfree, op => by
    rw [evalLogic, evalLogic, hes.isEmpty_eq]
    refine (sim_arm hc he hfree).bindAfter ?_
    rintro v _ ⟨hv⟩
    split
    next => exact sim_pure ⟨hv⟩
    next =>
      refine Sim.andThen (keeps_truth v) fun r _ ↦ ?_
      split
      next => exact sim_pure ⟨hv⟩
      next => exact sim_evalLogic hc hes hfree

theorem sim_evalConditions (hc : b.AlikeContexts c c') {es es' : List Expr} : TracedExprs b.tracing es es' →
    ∀ {env : Env}, Free b.Own env → b.Sim (Same Any) (evalConditions c env es) (evalConditions c' env es')
  | .nil, _, _ => by
    rw [evalConditions, evalConditions]
    exact sim_pure ⟨trivial⟩
  | .cons he hes, _, hfree => by
    rw [evalConditions, evalConditions]
    refine (sim_eval hc he hfree).andThen fun v hv ↦ Sim.andThen (keeps_truth v) fun r _ ↦ ?_
    cases r with
    | true => exact sim_evalConditions hc hes hfree
    | false => exact sim_pure ⟨trivial⟩
end

end Comparison

end Coverage.Program
