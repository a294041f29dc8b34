import Coverage.Proofs.Weaving.Shapes

/-!
# Woven expressions

If a node is read as an expression in the fragment that does not use the variable of counters, then the woven
node is read as the traced expression.
-/

namespace Coverage.Program

open Syntax Pass

section Expressions

variable {plan : Plan} {marks : Marks} {first : NodeId} {final : Marks} {labels : Event → Option Key → Prop}
  {reads : Prop}

/-- The allowance for code of nodes in which nothing is counted. -/
def sparing (plan : Plan) (ids : List NodeId) : Allowed :=
  { avoiding plan.globalName with node := fun i ↦ decide (i ∈ ids) }

theorem spares_sparing {ids : List NodeId} (h : ∀ i ∈ ids, (tracingOf plan labels reads).Silent i) :
    (tracingOf plan labels reads).Spares false (sparing plan ids) where
  name x hx hown := by simp [sparing, avoiding, hown.2, tracingOf] at hx
  load x hx := .inl fun hown ↦ by simp [sparing, avoiding, hown.2, tracingOf] at hx
  node i hi := h i (of_decide_eq_true hi)

theorem covers_sparing (ids : List NodeId) : Covers (fun i ↦ decide (i ∈ ids)) ids := fun _ hi ↦ decide_eq_true hi

/-- An expression that is left alone. -/
theorem ReadsExpr.left {n : Node} {e : Expr} (hn : ReadsExpr n e) (ha : e.fits (avoiding plan.globalName) = true)
    (h : ∀ i ∈ n.ids, (tracingOf plan labels reads).Silent i) : TracedExpr (tracingOf plan labels reads) e e :=
  traced_expr_self (spares_sparing h) e (hn.fits (covers_sparing n.ids) ha)

theorem ReadsExpr.marked {i : NodeId} {c : NodeClass} {p : Place} {fs : List Field} {e : Expr}
    (hn : ReadsExpr (.mk i c p fs) e) (ht : Obey labels (.silent i :: hushTags (fieldsIds fs)))
    (ha : e.fits (avoiding plan.globalName) = true) :
    ∃ e', ReadsExpr (.mk i c p fs) e' ∧ TracedExpr (tracingOf plan labels reads) e e' := by
  refine ⟨e, hn, hn.left ha fun j hj ↦ ?_⟩
  rw [obey_cons] at ht
  rcases List.mem_cons.1 hj with rfl | hj
  · exact obeys_silent ht.1
  · exact (obey_hushTags ht.2 hj).2

theorem ReadsExpr.not_statement {n : Node} {e : Expr} (h : ReadsExpr n e) : n.isStatement = false := by
  cases h <;> rfl

theorem ReadsExprs.startsBlock_eq {ns : List Node} {es : List Expr} (h : ReadsExprs ns es) :
    startsBlock ns = false := by
  cases h with
  | nil => rfl
  | cons hn => exact hn.not_statement

theorem not_own {x : String} (h : (avoiding plan.globalName).name x = true) : ¬(tracingOf plan labels reads).Own x :=
  fun hown ↦ by simp [avoiding, hown.2, tracingOf] at h

theorem not_own_names {xs : List String} (h : xs.all (avoiding plan.globalName).name = true) :
    ∀ x ∈ xs, ¬(tracingOf plan labels reads).Own x :=
  fun x hx ↦ not_own (List.all_eq_true.1 h x hx)

theorem traced_ofName {x : String} (h : (Expr.ofName x).fits (avoiding plan.globalName) = true) :
    TracedExpr (tracingOf plan labels reads) (.ofName x) (.ofName x) := by
  unfold Expr.ofName at h ⊢
  split
  next => exact .const
  next hx =>
    rw [if_neg hx] at h
    exact .name (.inl (not_own h))

/-- The parameters of a function stay. -/
theorem woven_arguments {j : NodeId} {p : Place} {posonly args defaults : List Node} {t : List Tag} {n : Node}
    {params : List String} {es : List Expr}
    (h : Woven plan marks first final
      (.mk j (.plain .arguments) p [.many posonly, .many args, .none, .many [], .many [], .none, .many defaults]) t n)
    (hparams : (posonly ++ args).mapM param? = some params) (hd : ReadsExprs defaults es) (ht : Obey labels t) :
    ∃ posonly' args' defaults',
      n = .mk j (.plain .arguments) p
        [.many posonly', .many args', .none, .many [], .many [], .none, .many defaults'] ∧
      (posonly' ++ args').mapM param? = some params ∧
      (defaults' = defaults ∧ (∀ i ∈ nodesIds defaults, (tracingOf plan labels reads).Silent i) ∨
        ∃ t', Obey labels t' ∧ WovenAll plan marks first final defaults t' defaults') := by
  obtain ⟨rfl, rfl⟩ | ⟨fs', rfl, hfs⟩ := h.fields rfl
  · refine ⟨posonly, args, defaults, rfl, hparams, .inl ⟨rfl, fun i hi ↦ ?_⟩⟩
    rw [obey_cons] at ht
    refine (obey_hushTags ht.2 ?_).2
    simp [fieldsIds_cons, hi]
  · obtain ⟨t₁, t', f₁, rest, rfl, rfl, h₁, hrest⟩ := hfs.cons_inv rfl
    obtain ⟨t₂, t', f₂, rest, rfl, rfl, h₂, hrest⟩ := hrest.cons_inv rfl
    obtain ⟨t₃, t', f₃, rest, rfl, rfl, h₃, hrest⟩ := hrest.cons_inv rfl
    obtain ⟨t₄, t', f₄, rest, rfl, rfl, h₄, hrest⟩ := hrest.cons_inv rfl
    obtain ⟨t₅, t₆, t₇, f₅, f₆, f₇, rfl, rfl, h₅, h₆, h₇⟩ := hrest.three rfl rfl rfl
    obtain ⟨posonly', args', rfl, rfl, hparams'⟩ := steady_param?.append hparams h₁ h₂
    obtain ⟨rfl, rfl⟩ := h₃.atom_inv rfl
    obtain ⟨ns₄, rfl, hw₄⟩ := h₄.all_inv rfl
    obtain ⟨ns₅, rfl, hw₅⟩ := h₅.all_inv rfl
    obtain ⟨rfl, rfl⟩ := h₆.atom_inv rfl
    obtain ⟨defaults', rfl, hw₇⟩ := h₇.all_inv hd.startsBlock_eq
    cases hw₄
    cases hw₅
    refine ⟨posonly', args', defaults', rfl, hparams', .inr ⟨t₇, ?_, hw₇⟩⟩
    simp only [obey_append] at ht
    exact ht.2.2.2.2.2.2

/-- The round of a comprehension is left alone or walked field by field. -/
theorem woven_comprehension {j : NodeId} {p : Place} {target source : Node} {ifs : List Node}
    {k : Int} {t : List Tag} {n : Node} {x : String} {es : List Expr}
    (h : Woven plan marks first final
      (.mk j (.plain .comprehension) p [.child target, .child source, .many ifs, .number k]) t n)
    (hx : name? target = some x) (hc : ReadsExprs ifs es) (ht : Obey labels t) :
    ∃ target' source' ifs',
      n = .mk j (.plain .comprehension) p [.child target', .child source', .many ifs', .number k] ∧
      name? target' = some x ∧
      (source' = source ∧ ifs' = ifs ∧ (∀ i ∈ source.ids, (tracingOf plan labels reads).Silent i) ∧
          (∀ i ∈ nodesIds ifs, (tracingOf plan labels reads).Silent i) ∨
        ∃ t₁ t₂, Obey labels t₁ ∧ Obey labels t₂ ∧ Woven plan marks first final source t₁ source' ∧
          WovenAll plan marks first final ifs t₂ ifs') := by
  obtain ⟨rfl, rfl⟩ | ⟨fs', rfl, hfs⟩ := h.fields rfl
  · have hsilent : ∀ i ∈ fieldsIds [.child target, .child source, .many ifs, .number k],
        (tracingOf plan labels reads).Silent i := fun i hi ↦ (obey_hushTags (obey_cons.1 ht).2 hi).2
    refine ⟨target, source, ifs, rfl, hx, .inl ⟨rfl, rfl, fun i hi ↦ hsilent i ?_, fun i hi ↦ hsilent i ?_⟩⟩ <;>
      simp [fieldsIds_cons, hi]
  · obtain ⟨t₁, t', f₁, rest, rfl, rfl, h₁, hrest⟩ := hfs.cons_inv rfl
    obtain ⟨t₂, t₃, t₄, f₂, f₃, f₄, rfl, rfl, h₂, h₃, h₄⟩ := hrest.three rfl rfl rfl
    obtain ⟨-, rfl⟩ := h₄.atom_inv rfl
    obtain ⟨target', rfl, hw₁⟩ := h₁.child_inv
    obtain ⟨source', rfl, hw₂⟩ := h₂.child_inv
    obtain ⟨ifs', rfl, hw₃⟩ := h₃.all_inv hc.startsBlock_eq
    simp only [obey_append] at ht
    exact ⟨target', source', ifs', rfl, steady_name?.woven hx hw₁,
      .inr ⟨t₂, t₃, ht.2.1, ht.2.2.1, hw₂, hw₃⟩⟩

theorem ReadsExprs.left {ns : List Node} {es : List Expr} (hns : ReadsExprs ns es)
    (ha : exprsFit (avoiding plan.globalName) es = true)
    (h : ∀ i ∈ nodesIds ns, (tracingOf plan labels reads).Silent i) : TracedExprs (tracingOf plan labels reads) es es :=
  traced_exprs_self (spares_sparing h) es (hns.fits (covers_sparing _) ha)

mutual
/-- A woven expression is read as a tracing of what the expression is read as. -/
theorem ReadsExpr.woven (hdebug : plan.globalName ≠ "__debug__") {n n' : Node} {e : Expr} {t : List Tag} :
    ReadsExpr n e → Woven plan marks first final n t n' → Obey labels t → e.fits (avoiding plan.globalName) = true →
      ∃ e', ReadsExpr n' e' ∧ TracedExpr (tracingOf plan labels reads) e e'
  | .constant hc, hw, ht, ha => by
    obtain ⟨rfl, rfl⟩ | ⟨fs', rfl, hfs⟩ := hw.fields rfl
    · exact (ReadsExpr.constant hc).marked ht ha
    · obtain ⟨t₁, t₂, f₁, f₂, rfl, rfl, h₁, -⟩ := hfs.two rfl rfl
      obtain ⟨rfl, rfl⟩ := h₁.atom_inv rfl
      exact ⟨_, .constant hc, .const⟩
  | .name, hw, ht, ha => by
    obtain ⟨rfl, rfl⟩ | ⟨fs', rfl, hfs⟩ := hw.fields rfl
    · exact ReadsExpr.name.marked ht ha
    · obtain ⟨t₁, t₂, f₁, f₂, rfl, rfl, h₁, -⟩ := hfs.two rfl rfl
      obtain ⟨rfl, rfl⟩ := h₁.atom_inv rfl
      exact ⟨_, .name, traced_ofName ha⟩
  | .binOp hop hl hr, hw, ht, ha => by
    obtain ⟨rfl, rfl⟩ | ⟨fs', rfl, hfs⟩ := hw.fields rfl
    · exact (ReadsExpr.binOp hop hl hr).marked ht ha
    · obtain ⟨t₁, t₂, t₃, f₁, f₂, f₃, rfl, rfl, h₁, h₂, h₃⟩ := hfs.three rfl rfl rfl
      obtain ⟨l', rfl, hwl⟩ := h₁.child_inv
      obtain ⟨op', rfl, hwop⟩ := h₂.child_inv
      obtain ⟨r', rfl, hwr⟩ := h₃.child_inv
      simp only [obey_append] at ht
      simp only [Expr.fits, Bool.and_eq_true] at ha
      obtain ⟨el, hl', hel⟩ := hl.woven hdebug hwl ht.1 ha.1
      obtain ⟨er, hr', her⟩ := hr.woven hdebug hwr ht.2.2 ha.2
      exact ⟨_, .binOp (steady_arith?.woven hop hwop) hl' hr', .arith hel her⟩
  | .unaryOp hop hn, hw, ht, ha => by
    obtain ⟨rfl, rfl⟩ | ⟨fs', rfl, hfs⟩ := hw.fields rfl
    · exact (ReadsExpr.unaryOp hop hn).marked ht ha
    · obtain ⟨t₁, t₂, f₁, f₂, rfl, rfl, h₁, h₂⟩ := hfs.two rfl rfl
      obtain ⟨op', rfl, hwop⟩ := h₁.child_inv
      obtain ⟨n', rfl, hwn⟩ := h₂.child_inv
      simp only [obey_append] at ht
      obtain ⟨e', hn', he'⟩ := hn.woven hdebug hwn ht.2 ha
      exact ⟨_, .unaryOp (steady_unary?.woven hop hwop) hn', .unary he'⟩
  | .compare hops hf hr, hw, ht, ha => by
    obtain ⟨rfl, rfl⟩ | ⟨fs', rfl, hfs⟩ := hw.fields rfl
    · exact (ReadsExpr.compare hops hf hr).marked ht ha
    · obtain ⟨t₁, t₂, t₃, f₁, f₂, f₃, rfl, rfl, h₁, h₂, h₃⟩ := hfs.three rfl rfl rfl
      obtain ⟨n', rfl, hwn⟩ := h₁.child_inv
      obtain ⟨ops', rfl, hops'⟩ := steady_relation?.field hops h₂
      obtain ⟨rest', rfl, hwrest⟩ := h₃.all_inv hr.startsBlock_eq
      simp only [obey_append] at ht
      simp only [Expr.fits, Bool.and_eq_true] at ha
      obtain ⟨e', hf', he'⟩ := hf.woven hdebug hwn ht.1 ha.1
      obtain ⟨es', hr', hes'⟩ := hr.woven hdebug hwrest ht.2.2 ha.2
      exact ⟨_, .compare hops' hf' hr', .compare he' hes'⟩
  | .boolOp hop hns, hw, ht, ha => by
    cases hw with
    | marked held => exact (ReadsExpr.boolOp hop hns).marked ht ha
    | boolOp _ hvs =>
      simp only [obey_append] at ht
      simp only [Expr.fits, Bool.and_eq_true] at ha
      obtain ⟨es', hns', hes'⟩ := hns.wovenOperands hdebug hvs ht.1 ht.2 ha.2
      exact ⟨_, .boolOp hop hns', .logic hes'⟩
    | plain _ noRule => simp [hasRule] at noRule
  | .ifExp ht hb ho, hw, htags, ha => by
    cases hw with
    | marked held => exact (ReadsExpr.ifExp ht hb ho).marked htags ha
    | ifExp _ hwt hwb hwo arm₀ arm₁ =>
      simp only [obey_append, obey_armTags_cons] at htags
      obtain ⟨⟨label₀, label₁, -⟩, ⟨ht₁, ht₂⟩, ht₃⟩ := htags
      simp only [Expr.fits, Bool.and_eq_true] at ha
      obtain ⟨e₁, ht', he₁⟩ := ht.woven hdebug hwt ht₁ ha.1.1.2
      obtain ⟨e₂, hb', he₂⟩ := hb.woven hdebug hwb ht₂ ha.1.2
      obtain ⟨e₃, ho', he₃⟩ := ho.woven hdebug hwo ht₃ ha.2
      obtain ⟨e₂', hb'', he₂'⟩ := arm₀.traced hdebug label₀ hb' he₂
      obtain ⟨e₃', ho'', he₃'⟩ := arm₁.traced hdebug label₁ ho' he₃
      exact ⟨_, .ifExp ht' hb'' ho'', .ifElse he₁ he₂' he₃'⟩
    | plain _ noRule => simp [hasRule] at noRule
  | .call hf hargs, hw, ht, ha => by
    obtain ⟨rfl, rfl⟩ | ⟨fs', rfl, hfs⟩ := hw.fields rfl
    · exact (ReadsExpr.call hf hargs).marked ht ha
    · obtain ⟨t₁, t₂, t₃, f₁, f₂, f₃, rfl, rfl, h₁, h₂, h₃⟩ := hfs.three rfl rfl rfl
      obtain ⟨n', rfl, hwn⟩ := h₁.child_inv
      obtain ⟨args', rfl, hwargs⟩ := h₂.all_inv hargs.startsBlock_eq
      obtain ⟨keywords', rfl, hwkeywords⟩ := h₃.all_inv rfl
      cases hwkeywords
      simp only [obey_append] at ht
      simp only [Expr.fits, Bool.and_eq_true] at ha
      obtain ⟨e', hf', he'⟩ := hf.woven hdebug hwn ht.1 ha.1
      obtain ⟨es', hargs', hes'⟩ := hargs.woven hdebug hwargs ht.2.1 ha.2
      exact ⟨_, .call hf' hargs', .call he' hes'⟩
  | .lambda hparams hd hb, hw, ht, ha => by
    cases hw with
    | marked held => exact (ReadsExpr.lambda hparams hd hb).marked ht ha
    | lambda _ hwa hwb entry =>
      simp only [obey_cons, obey_append, obeys_label] at ht
      obtain ⟨label, ht₁, ht₂⟩ := ht
      simp only [Expr.fits, Bool.and_eq_true] at ha
      obtain ⟨posonly', args', defaults', rfl, hparams', hdefaults⟩ := woven_arguments hwa hparams hd ht₁
      obtain ⟨es', hd', hes'⟩ : ∃ es', ReadsExprs defaults' es' ∧ TracedExprs (tracingOf plan labels reads) _ es' := by
        rcases hdefaults with ⟨rfl, hsilent⟩ | ⟨t', ht', hwd⟩
        · exact ⟨_, hd, hd.left ha.1.2 hsilent⟩
        · exact hd.woven hdebug hwd ht' ha.1.2
      obtain ⟨e₁, hb', he₁⟩ := hb.woven hdebug hwb ht₂ ha.2
      obtain ⟨e₂, hb'', he₂⟩ := entry.traced hdebug label hb' he₁
      exact ⟨_, .lambda hparams' hd' hb'', .lambda (not_own_names ha.1.1.2) hes' he₂⟩
    | plain _ noRule => simp [hasRule] at noRule
  | .list hns, hw, ht, ha => by
    obtain ⟨rfl, rfl⟩ | ⟨fs', rfl, hfs⟩ := hw.fields rfl
    · exact (ReadsExpr.list hns).marked ht ha
    · obtain ⟨t₁, t₂, f₁, f₂, rfl, rfl, h₁, -⟩ := hfs.two rfl rfl
      obtain ⟨ns', rfl, hwns⟩ := h₁.all_inv hns.startsBlock_eq
      simp only [obey_append] at ht
      obtain ⟨es', hns', hes'⟩ := hns.woven hdebug hwns ht.1 ha
      exact ⟨_, .list hns', .list hes'⟩
  | .tuple hns, hw, ht, ha => by
    obtain ⟨rfl, rfl⟩ | ⟨fs', rfl, hfs⟩ := hw.fields rfl
    · exact (ReadsExpr.tuple hns).marked ht ha
    · obtain ⟨t₁, t₂, f₁, f₂, rfl, rfl, h₁, -⟩ := hfs.two rfl rfl
      obtain ⟨ns', rfl, hwns⟩ := h₁.all_inv hns.startsBlock_eq
      simp only [obey_append] at ht
      obtain ⟨es', hns', hes'⟩ := hns.woven hdebug hwns ht.1 ha
      exact ⟨_, .tuple hns', .tuple hes'⟩
  | .listComp hx hi hs hc, hw, ht, ha => by
    obtain ⟨rfl, rfl⟩ | ⟨fs', rfl, hfs⟩ := hw.fields rfl
    · exact (ReadsExpr.listComp hx hi hs hc).marked ht ha
    · obtain ⟨t₁, t₂, f₁, f₂, rfl, rfl, h₁, h₂⟩ := hfs.two rfl rfl
      obtain ⟨item', rfl, hwi⟩ := h₁.child_inv
      obtain ⟨ns', rfl, hwns⟩ := h₂.all_inv rfl
      simp only [obey_append] at ht
      simp only [Expr.fits, Bool.and_eq_true] at ha
      obtain ⟨⟨⟨hx', hi'⟩, hs'⟩, hc'⟩ := ha
      obtain ⟨e₁, hitem, he₁⟩ := hi.woven hdebug hwi ht.1 hi'
      cases hwns with
      | cons hwround hwnil =>
        cases hwnil
        rw [obey_append] at ht
        obtain ⟨target', source', ifs', rfl, hx'', hparts⟩ := woven_comprehension hwround hx hc ht.2.1
        obtain ⟨e₂, es, hs'', he₂, hc'', hes⟩ : ∃ e₂ es, ReadsExpr source' e₂ ∧
            TracedExpr (tracingOf plan labels reads) _ e₂ ∧ ReadsExprs ifs' es ∧
            TracedExprs (tracingOf plan labels reads) _ es := by
          rcases hparts with ⟨rfl, rfl, hsilent, hsilent'⟩ | ⟨u, u', hu, hu', hws, hwc⟩
          · exact ⟨_, _, hs, hs.left hs' hsilent, hc, hc.left hc' hsilent'⟩
          · obtain ⟨e₂, hs'', he₂⟩ := hs.woven hdebug hws hu hs'
            obtain ⟨es, hc'', hes⟩ := hc.woven hdebug hwc hu' hc'
            exact ⟨e₂, es, hs'', he₂, hc'', hes⟩
        exact ⟨_, .listComp hx'' hitem hs'' hc'', .collect (not_own hx') he₁ he₂ hes⟩
  | .subscript hn hi, hw, ht, ha => by
    obtain ⟨rfl, rfl⟩ | ⟨fs', rfl, hfs⟩ := hw.fields rfl
    · exact (ReadsExpr.subscript hn hi).marked ht ha
    · obtain ⟨t₁, t₂, t₃, f₁, f₂, f₃, rfl, rfl, h₁, h₂, -⟩ := hfs.three rfl rfl rfl
      obtain ⟨n', rfl, hwn⟩ := h₁.child_inv
      obtain ⟨index', rfl, hwi⟩ := h₂.child_inv
      simp only [obey_append] at ht
      simp only [Expr.fits, Bool.and_eq_true] at ha
      obtain ⟨e₁, hn', he₁⟩ := hn.woven hdebug hwn ht.1 ha.1
      obtain ⟨e₂, hi', he₂⟩ := hi.woven hdebug hwi ht.2.1 ha.2
      exact ⟨_, .subscript hn' hi', .item he₁ he₂⟩
  | .attr hn, hw, ht, ha => by
    obtain ⟨rfl, rfl⟩ | ⟨fs', rfl, hfs⟩ := hw.fields rfl
    · exact (ReadsExpr.attr hn).marked ht ha
    · obtain ⟨t₁, t₂, t₃, f₁, f₂, f₃, rfl, rfl, h₁, h₂, -⟩ := hfs.three rfl rfl rfl
      obtain ⟨n', rfl, hwn⟩ := h₁.child_inv
      obtain ⟨rfl, rfl⟩ := h₂.atom_inv rfl
      simp only [obey_append] at ht
      obtain ⟨e', hn', he'⟩ := hn.woven hdebug hwn ht.1 ha
      exact ⟨_, .attr hn', .attribute he'⟩

theorem ReadsExprs.woven (hdebug : plan.globalName ≠ "__debug__") {ns ns' : List Node} {es : List Expr}
    {t : List Tag} :
    ReadsExprs ns es → WovenAll plan marks first final ns t ns' → Obey labels t →
      exprsFit (avoiding plan.globalName) es = true →
      ∃ es', ReadsExprs ns' es' ∧ TracedExprs (tracingOf plan labels reads) es es'
  | .nil, hw, ht, ha => by
    cases hw
    exact ⟨[], .nil, .nil⟩
  | .cons hn hns, hw, ht, ha => by
    cases hw with
    | cons hwn hwns =>
      simp only [obey_append] at ht
      simp only [exprsFit, Bool.and_eq_true] at ha
      obtain ⟨e', hn', he'⟩ := hn.woven hdebug hwn ht.1 ha.1
      obtain ⟨es', hns', hes'⟩ := hns.woven hdebug hwns ht.2 ha.2
      exact ⟨_, .cons hn' hns', .cons he' hes'⟩

/-- Each operand is an arm of its own. -/
theorem ReadsExprs.wovenOperands (hdebug : plan.globalName ≠ "__debug__") {ns ns' : List Node} {es : List Expr}
    {t : List Tag} {keys : List (Option Key)} {i : NodeId} {n : Nat} :
    ReadsExprs ns es → WovenOperands plan marks first final keys ns t ns' → Obey labels (armTags i n keys) →
      Obey labels t → exprsFit (avoiding plan.globalName) es = true →
      ∃ es', ReadsExprs ns' es' ∧ TracedOperands (tracingOf plan labels reads) i n es es'
  | .nil, hw, harms, ht, ha => by
    cases hw
    exact ⟨[], .nil, .nil⟩
  | .cons hn hns, hw, harms, ht, ha => by
    cases hw with
    | cons hwn arm hwns =>
      simp only [obey_append] at ht
      rw [obey_armTags_cons] at harms
      simp only [exprsFit, Bool.and_eq_true] at ha
      obtain ⟨e', hn', he'⟩ := hn.woven hdebug hwn ht.1 ha.1
      obtain ⟨e'', hn'', he''⟩ := arm.traced hdebug harms.1 hn' he'
      obtain ⟨es', hns', hes'⟩ := hns.wovenOperands hdebug hwns harms.2 ht.2 ha.2
      exact ⟨_, .cons hn'' hns', .cons he'' hes'⟩
end

end Expressions

end Coverage.Program
