import Coverage.Proofs.Simulation.Eval

/-!
# Comparing statements

Executing a traced statement does what executing the original does and counts what it has a counter for. With
bounds on the number of open calls this holds of functions and their traced forms, and so of whole programs.
-/

namespace Coverage.Program.Comparison

variable {b : Comparison} {c c' : Context}

/-! ## Patterns -/

/-- Variables that a pattern of the program can bind. -/
def CleanBindings (b : Comparison) (bindings : Option (List (String × Value))) : Prop :=
  ∀ pairs, bindings = some pairs → ∀ p ∈ pairs, ¬b.Own p.1 ∧ b.Clean p.2

theorem cleanBindings_none : b.CleanBindings none := nofun

theorem cleanBindings_nil : b.CleanBindings (some []) := by
  rintro _ ⟨⟩
  simp

theorem CleanBindings.capture {bindings : Option (List (String × Value))} (h : b.CleanBindings bindings) {x : String}
    (hx : ¬b.Own x) {v : Value} (hv : b.Clean v) : b.CleanBindings (bindings.map (· ++ [(x, v)])) := by
  intro pairs hpairs p hp
  obtain ⟨pairs, rfl, rfl⟩ := Option.map_eq_some_iff.1 hpairs
  rcases List.mem_append.1 hp with hp | hp
  · exact h pairs rfl p hp
  · obtain rfl := List.mem_singleton.1 hp
    exact ⟨hx, hv⟩

section Patterns

variable {env : Env} {v : Value}

mutual
/-- Patterns are matched in the same way. -/
theorem sim_matchValue (hc : b.AlikeContexts c c') (hfree : Free b.Own env) (hv : b.Clean v) {p : Pattern} :
    PlainPattern b.tracing p → b.Sim (Same b.CleanBindings) (p.matchValue c env v) (p.matchValue c' env v)
  | .value he => by
    rw [Pattern.matchValue, Pattern.matchValue]
    refine (sim_eval hc he hfree).andThen fun w _ ↦ Sim.andThen (keeps_equal v w) fun r _ ↦ ?_
    cases r with
    | true => exact sim_pure ⟨cleanBindings_nil⟩
    | false => exact sim_pure ⟨cleanBindings_none⟩
  | .singleton => by
    rw [Pattern.matchValue, Pattern.matchValue]
    split
    next => exact sim_pure ⟨cleanBindings_nil⟩
    next => exact sim_pure ⟨cleanBindings_none⟩
  | .any => by
    rw [Pattern.matchValue, Pattern.matchValue]
    exact sim_pure ⟨cleanBindings_nil⟩
  | .capture hx hi => by
    rw [Pattern.matchValue, Pattern.matchValue]
    exact (sim_matchValue hc hfree hv hi).andThen fun bindings hbindings ↦ sim_pure ⟨hbindings.capture hx hv⟩
  | .or ha => by
    rw [Pattern.matchValue, Pattern.matchValue]
    exact sim_matchAny hc hfree hv ha
  | .foreign => by
    rw [Pattern.matchValue, Pattern.matchValue]
    exact sim_stuck

theorem sim_matchAny (hc : b.AlikeContexts c c') (hfree : Free b.Own env) (hv : b.Clean v)
    {ps : List Pattern} :
    PlainPatterns b.tracing ps → b.Sim (Same b.CleanBindings) (matchAny c env v ps) (matchAny c' env v ps)
  | .nil => by
    rw [matchAny, matchAny]
    exact sim_pure ⟨cleanBindings_none⟩
  | .cons hp hps => by
    rw [matchAny, matchAny]
    refine (sim_matchValue hc hfree hv hp).andThen fun bindings hbindings ↦ ?_
    cases bindings with
    | some bindings => exact sim_pure ⟨hbindings⟩
    | none => exact sim_matchAny hc hfree hv hps
end

end Patterns

/-! ## Blocks -/

/-- The end of a statement in the program. -/
def CleanFlow (b : Comparison) : Flow → Prop
  | .give v => b.Clean v
  | _ => True

section Blocks

variable {env : Env} {s : State}

/-- A final block is run after either. -/
theorem sim_ensuring {x x' final final' : Step Flow} (hx : b.Sim (Same b.CleanFlow) x x')
    (hfinal : b.Sim (Same b.CleanFlow) final final') :
    b.Sim (Same b.CleanFlow) (ensuring x final) (ensuring x' final') := by
  refine hx.attempt.bind fun r r' hr ↦ ?_
  cases hr with
  | ok hflow =>
    obtain ⟨hflow⟩ := hflow
    refine hfinal.andThen fun flow' hflow' ↦ ?_
    cases flow' with
    | next => exact sim_pure ⟨hflow⟩
    | _ => exact sim_pure ⟨hflow'⟩
  | error clean =>
    refine (hfinal.handling clean).andThen fun flow' hflow' ↦ ?_
    cases flow' with
    | next => exact sim_throwValue clean
    | _ => exact sim_pure ⟨hflow'⟩

/-- Loops go round equally often. -/
theorem sim_loop {id : Syntax.NodeId} {more more' : Nat → Step Bool} {body body' orelse orelse' : Step Flow}
    (hmore : ∀ i, b.Sim (Same Any) (more i) (more' i))
    (hbody : b.Sim (Same b.CleanFlow) (record (.took id 0) >>= fun _ ↦ body) (record (.took id 0) >>= fun _ ↦ body'))
    (horelse : b.Sim (Same b.CleanFlow) (record (.took id 1) >>= fun _ ↦ orelse)
      (record (.took id 1) >>= fun _ ↦ orelse')) (fuel : Nat) :
    ∀ i, b.Sim (Same b.CleanFlow) (loop id more body orelse fuel i) (loop id more' body' orelse' fuel i) := by
  induction fuel with
  | zero => exact fun i ↦ sim_outOfFuel
  | succ fuel ih =>
    intro i
    refine (hmore i).andThen fun another _ ↦ ?_
    cases another with
    | false => exact horelse
    | true =>
      refine hbody.bindAfter ?_
      rintro flow _ ⟨hflow⟩
      cases flow with
      | leave => exact sim_pure ⟨trivial⟩
      | give v => exact sim_pure ⟨hflow⟩
      | next => exact ih (i + 1)
      | again => exact ih (i + 1)

theorem sim_test (hc : b.AlikeContexts c c') (hfree : Free b.Own env) {e e' : Expr}
    (he : TracedExpr b.tracing e e') : b.Sim (Same Any) (e.test c env) (e'.test c' env) :=
  (sim_eval hc he hfree).andThen fun v _ ↦ keeps_truth v

/-- A statement that counts goes on. -/
theorem outcome_execAll_counter (counts : b.tracing.counts) (hfree : Free b.Own env)
    (bound : s.globals.get? b.globalName = some (.ledger b.ledger)) (j : Syntax.NodeId) (key : Key) (ss : List Stmt) :
    outcome (execAll c env (b.tracing.counter j key :: ss)) s =
      outcome (do
        record (.started j)
        b.mark key
        execAll c env ss) s := by
  have hcall (t : State) (ht : t.globals.get? b.globalName = some (.ledger b.ledger)) :
      outcome ((b.tracing.counter j key).exec c env) t = (.ok .next, (outcome (b.mark key) t).2) := by
    rw [Tracing.counter, Stmt.exec, outcome_bind_of_ok (outcome_eval_hit counts hfree ht key)]
    rfl
  rw [execAll, outcome_bind_of_ok (outcome_record ..), outcome_bind_of_ok (outcome_record ..),
    outcome_bind_of_ok (x := b.mark key) rfl]
  exact outcome_bind_of_ok (hcall { s with history := .started j :: s.history } bound) _

/-- What a guard makes of how its block was left. -/
def leaveGuard (b : Comparison) (ok error : Key) : Except Value Flow → Step (Except Value Flow)
  | .ok flow => do
    b.mark ok
    return .ok flow
  | .error e => do
    b.mark error
    return .error e

/-- A guard around a block counts how the block was left. -/
theorem outcome_attempt_guarded (counts : b.tracing.counts) (hfree : Free b.Own env)
    (bound : s.globals.get? b.globalName = some (.ledger b.ledger)) (j : Syntax.NodeId) (ok error : Key)
    (ss : List Stmt) :
    outcome (attempt (execAll c env [.guarded j (b.tracing.call "guard" [ok, error]) ss])) s =
      outcome (record (.started j) >>= fun _ ↦ attempt (execAll c env ss) >>= b.leaveGuard ok error) s := by
  have hguard (t : State) (ht : t.globals.get? b.globalName = some (.ledger b.ledger)) :
      outcome ((b.tracing.call "guard" [ok, error]).eval c env) t =
        (.ok (.guardOf b.ledger b.tracing.file ok error), t) :=
    outcome_eval_guard counts hfree ht ok error
  rw [outcome_attempt, execAll, outcome_bind_of_ok (outcome_record ..), outcome_bind_of_ok (outcome_record ..),
    outcome_bind, Stmt.exec, Stmt.id, outcome_bind_of_ok (hguard { s with history := .started j :: s.history } bound),
    outcome_bind, outcome_bind, outcome_attempt (execAll c env ss)]
  generalize outcome (execAll c env ss) _ = r
  rcases r with ⟨(_ | _ | _) | flow, t⟩
  · rfl
  · rfl
  · rfl
  · cases flow <;> rfl

theorem sim_guardHolds (hc : b.AlikeContexts c c') (hfree : Free b.Own env) {guard guard' : Option Expr}
    (hg : TracedOption b.tracing guard guard') :
    b.Sim (Same Any) (guardHolds c env guard) (guardHolds c' env guard') := by
  cases hg with
  | none => exact sim_pure ⟨trivial⟩
  | some he => exact sim_test hc hfree he

theorem sim_handles (hc : b.AlikeContexts c c') (hfree : Free b.Own env) (e : Value)
    {types types' : Option Expr} (ht : TracedOption b.tracing types types') :
    b.Sim (Same Any) (handles c env e types) (handles c' env e types') := by
  cases ht with
  | none => exact sim_pure ⟨trivial⟩
  | some he => exact (sim_eval hc he hfree).andThen fun v _ ↦ keeps_catches e v

/-- The `else` of a `try` runs if its body went on. -/
theorem sim_ifNext {x x' : Step Flow} (h : b.Sim (Same b.CleanFlow) x x') {flow : Flow} (hflow : b.CleanFlow flow) :
    b.Sim (Same b.CleanFlow) (if flow = .next then x else pure flow) (if flow = .next then x' else pure flow) := by
  split
  next => exact h
  next => exact sim_pure ⟨hflow⟩

theorem sim_naming {e : Value} (clean : b.Clean e) {name : Option String} (hx : ∀ x, name = some x → ¬b.Own x)
    {x x' : Step Flow} (h : b.Sim (Same b.CleanFlow) x x') :
    b.Sim (Same b.CleanFlow) (naming env e name x) (naming env e name x') := by
  cases name with
  | none => exact h
  | some name =>
    have hname : ¬b.Own name := hx name rfl
    refine Sim.andThen (keeps_bind hname clean env) fun _ _ ↦ h.attempt.bind fun r r' hr ↦ ?_
    exact Sim.andThen (keeps_unbind hname env) fun _ _ ↦ sim_resume hr

/-- Steps that start with an event and then go on alike. -/
def After (b : Comparison) (event : Event) (x x' : Step Flow) : Prop :=
  ∃ y y', x = (record event >>= fun _ ↦ y) ∧ x' = (record event >>= fun _ ↦ y') ∧ b.Sim (Same b.CleanFlow) y y'

theorem After.bare {event : Event} {x x' : Step Flow} (h : b.After event x x') (label : b.tracing.labels event none) :
    b.Sim (Same b.CleanFlow) x x' := by
  obtain ⟨y, y', rfl, rfl, hy⟩ := h
  exact (hy.record_right).record_left label

/-- A counter is run before the rest. -/
theorem After.counted {event : Event} {x x' : Step Flow} (h : b.After event x x') {key : Key}
    (label : b.tracing.labels event (some key)) : b.Sim (Same b.CleanFlow) x (b.mark key >>= fun _ ↦ x') := by
  obtain ⟨y, y', rfl, rfl, hy⟩ := h
  exact (hy.record_right).record_mark label

mutual
/-- A statement and a tracing of it. -/
theorem sim_exec (hc : b.AlikeContexts c c') (hfree : Free b.Own env) {s s' : Stmt} :
    TracedStmt b.tracing s s' → b.Sim (Same b.CleanFlow) (s.exec c env) (s'.exec c' env)
  | .expr he => by
    rw [Stmt.exec, Stmt.exec]
    exact (sim_eval hc he hfree).andThen fun _ _ ↦ sim_pure ⟨trivial⟩
  | .assign hx hv => by
    rw [Stmt.exec, Stmt.exec]
    exact (sim_eval hc hv hfree).andThen fun v hv ↦ Sim.andThen (keeps_bindAll hv env hx) fun _ _ ↦ sim_pure ⟨trivial⟩
  | .augment hx hv => by
    rw [Stmt.exec, Stmt.exec]
    refine Sim.andThen (keeps_load hx env) fun v hv' ↦ (sim_eval hc hv hfree).andThen fun w _ ↦ ?_
    exact Sim.andThen (keeps_update _ hv' w) fun u hu ↦ Sim.andThen (keeps_bind hx hu env) fun _ _ ↦
      sim_pure ⟨trivial⟩
  | .ifElse ht hb ho => by
    rw [Stmt.exec, Stmt.exec]
    refine (sim_test hc hfree ht).andThen fun r _ ↦ ?_
    cases r with
    | true => exact sim_clause hc hfree hb
    | false => exact sim_clause hc hfree ho
  | .whileLoop ht hb ho => by
    rw [Stmt.exec, Stmt.exec, hc.rounds_eq]
    exact sim_loop (fun _ ↦ sim_test hc hfree ht) (sim_clause hc hfree hb) (sim_clause hc hfree ho) _ 0
  | .forLoop hx hs hb ho => by
    rw [Stmt.exec, Stmt.exec, hc.rounds_eq]
    refine (sim_eval hc hs hfree).andThen fun v _ ↦ Sim.andThen (keeps_checkIterable v) fun _ _ ↦ ?_
    exact sim_loop (keeps_advance hx env v) (sim_clause hc hfree hb) (sim_clause hc hfree ho) _ 0
  | .breakLoop => by
    rw [Stmt.exec, Stmt.exec]
    exact sim_pure ⟨trivial⟩
  | .continueLoop => by
    rw [Stmt.exec, Stmt.exec]
    exact sim_pure ⟨trivial⟩
  | .pass => by
    rw [Stmt.exec, Stmt.exec]
    exact sim_pure ⟨trivial⟩
  | .giveBack hv => by
    cases hv with
    | none =>
      rw [Stmt.exec, Stmt.exec]
      exact sim_pure ⟨clean_const _⟩
    | some he =>
      rw [Stmt.exec, Stmt.exec]
      exact (sim_eval hc he hfree).andThen fun v hv ↦ sim_pure ⟨hv⟩
  | .define hx hp hd hb => by
    rw [Stmt.exec, Stmt.exec, hb.localNames_eq, hb.kept.declared_eq]
    refine (sim_evalAll hc hd hfree).andThen fun defaults hdefaults ↦ ?_
    refine Sim.andThen (sim_allocate (.function (.intro (.block hb) hdefaults (hb.not_own_localNames hp) hfree))) ?_
    exact fun f hf ↦ Sim.andThen (keeps_bind hx hf env) fun _ _ ↦ sim_pure ⟨trivial⟩
  | .global _ => by
    rw [Stmt.exec, Stmt.exec]
    exact sim_pure ⟨trivial⟩
  | .raise he => by
    cases he with
    | none =>
      rw [Stmt.exec, Stmt.exec]
      refine keeps_get (fun s s' hm ↦ by rw [hm.handled_eq]) fun s s' hm ↦ ?_
      split
      next e _ he => exact sim_throwValue (hm.handled e (he ▸ List.mem_cons_self ..))
      next => exact keeps_fail _
    | some he =>
      rw [Stmt.exec, Stmt.exec]
      exact (sim_eval hc he hfree).andThen fun v hv ↦ Sim.andThen (keeps_raisable hv) fun e he ↦ sim_throwValue he
  | .attempt hb hh ho hf => by
    rw [Stmt.exec, Stmt.exec]
    refine sim_ensuring (sim_try hc hfree hb (fun flow hflow ↦ ?_) fun e clean ↦ ?_) (sim_execAll hc hfree hf)
    · exact ⟨_, _, rfl, rfl, sim_ifNext (sim_execAll hc hfree ho) hflow⟩
    · exact ⟨_, _, rfl, rfl, (sim_execHandlers hc hfree clean hh).handling clean⟩
  | .choose hs hcases => by
    rw [Stmt.exec, Stmt.exec]
    exact (sim_eval hc hs hfree).andThen fun v hv ↦ sim_execCases hc hfree hv hcases
  | .future hx => by
    rw [Stmt.exec, Stmt.exec]
    have hfeature : b.Clean .feature := clean_of_ledger?_eq_none rfl
    exact Sim.andThen keeps_checkImport fun _ _ ↦ Sim.andThen (keeps_bindAll hfeature env hx) fun _ _ ↦
      sim_pure ⟨trivial⟩
  | .guarded hm hb => by
    rw [Stmt.exec, Stmt.exec]
    refine (sim_eval hc hm hfree).andThen fun v hv ↦ ?_
    cases v with
    | guardOf l file ok error =>
      have use : l = b.ledger → b.shared := fun hl ↦ hv (congrArg some hl)
      refine (sim_execAll hc hfree hb).attempt.bind fun r r' hr ↦ ?_
      cases hr with
      | ok hflow => exact Sim.andThen (keeps_hit use file ok) fun _ _ ↦ sim_pure hflow
      | error clean => exact Sim.andThen (keeps_hit use file error) fun _ _ ↦ sim_throwValue clean
    | _ => exact keeps_failType _ .noContext
  | .foreign => by
    rw [Stmt.exec, Stmt.exec]
    exact sim_stuck

theorem sim_execAll (hc : b.AlikeContexts c c') (hfree : Free b.Own env) {ss ss' : List Stmt} :
    TracedBlock b.tracing ss ss' → b.Sim (Same b.CleanFlow) (execAll c env ss) (execAll c' env ss')
  | .nil => by
    rw [execAll, execAll]
    exact sim_pure ⟨trivial⟩
  | .bare label hs hss => by
    rw [execAll, execAll]
    refine Sim.record_left label (Sim.record_right ((sim_exec hc hfree hs).andThen fun flow hflow ↦ ?_))
    cases flow with
    | next => exact sim_execAll hc hfree hss
    | _ => exact sim_pure ⟨hflow⟩
  | .counted label hs hss => by
    rw [execAll]
    refine Sim.of_bound (b.tracing.counted label) ?_ fun s bound ↦
      outcome_execAll_counter (b.tracing.counted label) hfree bound _ _ _
    refine Sim.record_right (Sim.record_mark label ?_)
    rw [execAll]
    refine Sim.record_right ((sim_exec hc hfree hs).andThen fun flow hflow ↦ ?_)
    cases flow with
    | next => exact sim_execAll hc hfree hss
    | _ => exact sim_pure ⟨hflow⟩

/-- A block whose choice is an event. -/
theorem sim_clause (hc : b.AlikeContexts c c') (hfree : Free b.Own env) {event : Event} {ss ss' : List Stmt} :
    TracedClause b.tracing event ss ss' →
      b.Sim (Same b.CleanFlow) (record event >>= fun _ ↦ execAll c env ss) (record event >>= fun _ ↦ execAll c' env ss')
  | .bare label hss => ((sim_execAll hc hfree hss).record_right).record_left label
  | .counted label hss => by
    refine Sim.record_right (Sim.of_bound (b.tracing.counted label) ?_ fun s bound ↦
      outcome_execAll_counter (b.tracing.counted label) hfree bound _ _ _)
    exact ((sim_execAll hc hfree hss).record_mark label).record_right

/-- The body of a `try`, and then what the arm that it takes leads to. -/
theorem sim_try (hc : b.AlikeContexts c c') (hfree : Free b.Own env) {i : Syntax.NodeId} {ss ss' : List Stmt}
    {f f' : Except Value Flow → Step Flow} : TracedTry b.tracing i ss ss' →
      (∀ flow, b.CleanFlow flow → b.After (.took i 0) (f (.ok flow)) (f' (.ok flow))) →
      (∀ e, b.Clean e → b.After (.took i 1) (f (.error e)) (f' (.error e))) →
      b.Sim (Same b.CleanFlow) (attempt (execAll c env ss) >>= f) (attempt (execAll c' env ss') >>= f')
  | .bare label₀ label₁ hss, hok, herror => by
    refine (sim_execAll hc hfree hss).attempt.bind fun r r' hr ↦ ?_
    cases hr with
    | ok hflow =>
      obtain ⟨hflow⟩ := hflow
      exact (hok _ hflow).bare label₀
    | error clean => exact (herror _ clean).bare label₁
  | .counted label₀ label₁ hss, hok, herror => by
    refine Sim.of_bound_bind (b.tracing.counted label₀) ?_ fun s bound ↦
      outcome_attempt_guarded (b.tracing.counted label₀) hfree bound _ _ _ _
    rw [bind_assoc]
    refine Sim.record_right ?_
    rw [bind_assoc]
    refine (sim_execAll hc hfree hss).attempt.bind fun r r' hr ↦ ?_
    -- The guard counts the arm that the original records next.
    cases hr with
    | ok hflow =>
      obtain ⟨hflow⟩ := hflow
      exact (hok _ hflow).counted label₀
    | error clean => exact (herror _ clean).counted label₁

theorem sim_execHandlers (hc : b.AlikeContexts c c') (hfree : Free b.Own env) {e : Value} (clean : b.Clean e)
    {hs hs' : List Handler} : TracedHandlers b.tracing hs hs' →
      b.Sim (Same b.CleanFlow) (execHandlers c env e hs) (execHandlers c' env e hs')
  | .nil => by
    rw [execHandlers, execHandlers]
    exact sim_throwValue clean
  | .cons ht hx hb hhs => by
    rw [execHandlers, execHandlers]
    refine (sim_handles hc hfree e ht).andThen fun caught _ ↦ ?_
    cases caught with
    | false => exact sim_execHandlers hc hfree clean hhs
    | true => exact sim_naming clean hx (sim_execAll hc hfree hb)

theorem sim_execCases (hc : b.AlikeContexts c c') (hfree : Free b.Own env) {v : Value} (hv : b.Clean v)
    {i : Syntax.NodeId} {a : Nat} {cs cs' : List Case} : TracedCases b.tracing i a cs cs' →
      b.Sim (Same b.CleanFlow) (execCases c env i v a cs) (execCases c' env i v a cs')
  | .nil label => by
    rw [execCases, execCases]
    exact ((sim_pure ⟨trivial⟩).record_right).record_left label
  | .fallback label => by
    rw [execCases, execCases, Pattern.matchValue]
    -- The case that is added matches every subject and has no guard.
    change b.Sim _ _ (record (.took i a) >>= fun _ ↦ execAll c' env [b.tracing.counter _ _])
    refine Sim.record_right (Sim.of_bound (b.tracing.counted label) ?_ fun s bound ↦
      outcome_execAll_counter (b.tracing.counted label) hfree bound _ _ _)
    rw [execAll]
    exact ((sim_pure ⟨trivial⟩).record_mark label).record_right
  | .cons hp hg hb hcs => by
    rw [execCases, execCases]
    refine (sim_matchValue hc hfree hv hp).andThen fun bindings hbindings ↦ ?_
    cases bindings with
    | none => exact sim_execCases hc hfree hv hcs
    | some bindings =>
      refine Sim.andThen (keeps_bindPairs env (hbindings bindings rfl)) fun _ _ ↦ ?_
      refine (sim_guardHolds hc hfree hg).andThen fun holds _ ↦ ?_
      cases holds with
      | true => exact sim_clause hc hfree hb
      | false => exact sim_execCases hc hfree hv hcs
end

/-! ## Functions and programs -/

/-- A constant as a statement does nothing. -/
theorem execAll_const (c : Context) (env : Env) (i : Syntax.NodeId) (k : Literal) (ss : List Stmt) :
    execAll c env (.expr i (.const k) :: ss) = record (.started i) >>= fun _ ↦ execAll c env ss := by
  rw [execAll, Stmt.exec, Expr.eval]
  rfl

theorem sim_body (hc : b.AlikeContexts c c') (hfree : Free b.Own env) {event : Event} {ss ss' : List Stmt}
    (h : TracedBody b.tracing event ss ss') :
    b.Sim (Same b.CleanFlow) (record event >>= fun _ ↦ execAll c env ss)
      (record event >>= fun _ ↦ execAll c' env ss') := by
  cases h with
  | clause hss => exact sim_clause hc hfree hss
  | behind quiet label hss =>
    rw [execAll_const, execAll_const]
    refine Sim.record_right (Sim.record_right ?_)
    refine Sim.of_bound (b.tracing.counted label) ?_ fun s bound ↦
      outcome_execAll_counter (b.tracing.counted label) hfree bound _ _ _
    exact Sim.record_right (Sim.record_mark label (Sim.record_left quiet (sim_execAll hc hfree hss)))

theorem sim_run (hc : b.AlikeContexts c c') (hfree : Free b.Own env) {i : Syntax.NodeId} {body body' : Body}
    (h : TracedCode b.tracing i body body') :
    b.Sim (Same b.Clean) (record (.entered i) >>= fun _ ↦ body.run c env)
      (record (.entered i) >>= fun _ ↦ body'.run c' env) := by
  cases h with
  | expr he => exact sim_arm hc he hfree
  | block hss =>
    refine (sim_body hc hfree hss).bindAfter ?_
    rintro flow _ ⟨hflow⟩
    cases flow with
    | give v => exact sim_pure ⟨hflow⟩
    | _ => exact sim_pure ⟨clean_const _⟩

end Blocks

/-- Functions and their traced forms are called alike, by induction on the number of calls that can be open. -/
theorem sim_callClosure (rounds depth : Nat) {f f' : Closure} {args : List Value} (hf : b.AlikeClosures f f')
    (hargs : ∀ v ∈ args, b.Clean v) :
    b.Sim (Same b.Clean) (callClosure rounds depth f args) (callClosure rounds depth f' args) := by
  induction depth generalizing f f' args with
  | zero => exact sim_outOfFuel
  | succ depth ih =>
    obtain ⟨code, hdefaults, hlocals, henv⟩ := hf
    rw [callClosure, callClosure]
    refine Sim.andThen (keeps_orFail fun ns hns ↦ Namespace.Holds.frame hdefaults hargs hns) fun ns hns ↦ ?_
    refine Sim.andThen (keeps_pushFrame hns) fun frame _ ↦ ?_
    exact sim_run ⟨rfl, ih⟩ (Free.cons hlocals henv) code

theorem alikeContexts (limits : Limits) : b.AlikeContexts limits.context limits.context where
  rounds_eq := rfl
  call := sim_callClosure limits.rounds limits.depth

/-- A traced program does what the original does, if its docstring does not take the name of the counters. -/
theorem sim_program (limits : Limits) {doc : Option String} (hdoc : doc.isSome → ¬b.Own "__doc__")
    {ss ss' : List Stmt} (h : TracedBlock b.tracing ss ss') :
    b.Sim (Same Any) (Program.run limits ⟨doc, ss⟩) (Program.run limits ⟨doc, ss'⟩) := by
  have hbody : b.Sim (Same Any) (do let _ ← execAll limits.context [] ss) (do let _ ← execAll limits.context [] ss') :=
    (sim_execAll (alikeContexts limits) (by simp [Free]) h).andThen fun _ _ ↦ sim_pure ⟨trivial⟩
  cases doc with
  | none => exact hbody
  | some text => exact Sim.andThen (keeps_bind (hdoc rfl) (clean_const _) []) fun _ _ ↦ hbody

end Coverage.Program.Comparison
