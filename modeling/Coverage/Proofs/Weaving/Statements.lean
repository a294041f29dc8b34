import Coverage.Proofs.Weaving.Expressions

/-!
# Woven statements

If a tree is read as a program in the fragment that does not use the variable of counters, then the woven
tree is read as the traced program. Statements that are passed over are not traced, and the docstring of a
module stays its docstring.
-/

namespace Coverage.Program

open Syntax Pass

section Statements

variable {plan : Plan} {marks : Marks} {first : NodeId} {final : Marks} {labels : Event → Option Key → Prop}
  {reads : Prop}

theorem ReadsOption.woven (hdebug : plan.globalName ≠ "__debug__") {f f' : Field} {e : Option Expr} {t : List Tag} :
    ReadsOption f e → WovenField plan marks first final f t f' → Obey labels t →
      optionFits (avoiding plan.globalName) e = true →
      ∃ e', ReadsOption f' e' ∧ TracedOption (tracingOf plan labels reads) e e'
  | .child hn, hw, ht, ha => by
    obtain ⟨n', rfl, hwn⟩ := hw.child_inv
    obtain ⟨e', hn', he'⟩ := hn.woven hdebug hwn ht ha
    exact ⟨_, .child hn', .some he'⟩
  | .other hnone, hw, ht, ha => by
    refine ⟨none, .other ?_, .none⟩
    cases hw with
    | child hn => simp [expr?] at hnone
    | block starts hns => rfl
    | all starts hns => rfl
    | atom holdsNone => exact hnone

theorem spares_of_quiet {ids : List NodeId} (ht : Obey labels (hushTags ids)) :
    (tracingOf plan labels reads).Spares false (sparing plan ids) :=
  spares_sparing fun _ hi ↦ (obey_hushTags ht hi).2

theorem still_of_quiet {ids : List NodeId} (ht : Obey labels (hushTags ids)) :
    (tracingOf plan labels reads).Still false (sparing plan ids) := by
  intro i hi
  have hquiet : labels (.started i) none ∧ (tracingOf plan labels reads).Silent i :=
    obey_hushTags ht (of_decide_eq_true hi)
  exact hquiet.1

theorem ReadsPattern.left {n : Node} {p : Pattern} (hn : ReadsPattern n p)
    (ha : p.fits (avoiding plan.globalName) = true) (ht : Obey labels (hushTags n.ids)) :
    PlainPattern (tracingOf plan labels reads) p :=
  plain_pattern (spares_of_quiet ht) p (hn.fits (covers_sparing n.ids) ha)

/-- A statement that is passed over. -/
theorem ReadsStmt.left {n : Node} {s : Stmt} (hn : ReadsStmt n s) (ha : s.fits (avoiding plan.globalName) = true)
    (ht : Obey labels (hushTags n.ids)) :
    labels (.started s.id) none ∧ TracedStmt (tracingOf plan labels reads) s s := by
  have hfits : s.fits (sparing plan n.ids) = true := hn.fits (covers_sparing n.ids) ha
  have hstill : (tracingOf plan labels reads).Still false (sparing plan n.ids) := still_of_quiet ht
  exact ⟨hstill _ (Stmt.node_of_fits hfits), traced_stmt_self (spares_of_quiet ht) hstill s hfits⟩

theorem ReadsBlock.left {ns : List Node} {ss : List Stmt} (hns : ReadsBlock ns ss)
    (ha : blockFits (avoiding plan.globalName) ss = true) (ht : Obey labels (hushTags (nodesIds ns))) :
    TracedBlock (tracingOf plan labels reads) ss ss :=
  traced_block_self (spares_of_quiet ht) (still_of_quiet ht) ss (hns.fits (covers_sparing _) ha)

theorem ReadsBlock.starts {ns : List Node} {ss : List Stmt} (h : ReadsBlock ns ss) :
    startsBlock ns = true ∨ ns = [] := by
  cases h with
  | nil => exact .inr rfl
  | cons hn => cases hn <;> exact .inl rfl

/-- Parameters stay, and their defaults are woven. -/
theorem woven_parameters (hdebug : plan.globalName ≠ "__debug__") {j : NodeId} {p : Place}
    {posonly args defaults : List Node} {t : List Tag} {n : Node} {params : List String} {es : List Expr}
    (h : Woven plan marks first final
      (.mk j (.plain .arguments) p [.many posonly, .many args, .none, .many [], .many [], .none, .many defaults]) t n)
    (hparams : (posonly ++ args).mapM param? = some params) (hd : ReadsExprs defaults es) (ht : Obey labels t)
    (ha : exprsFit (avoiding plan.globalName) es = true) :
    ∃ posonly' args' defaults' es',
      n = .mk j (.plain .arguments) p
        [.many posonly', .many args', .none, .many [], .many [], .none, .many defaults'] ∧
      (posonly' ++ args').mapM param? = some params ∧ ReadsExprs defaults' es' ∧
      TracedExprs (tracingOf plan labels reads) es es' := by
  obtain ⟨posonly', args', defaults', rfl, hparams', hdefaults⟩ := woven_arguments h hparams hd ht
  rcases hdefaults with ⟨rfl, hsilent⟩ | ⟨t', ht', hwd⟩
  · exact ⟨posonly', args', _, es, rfl, hparams', hd, hd.left ha hsilent⟩
  · obtain ⟨es', hd', hes'⟩ := hd.woven hdebug hwd ht' ha
    exact ⟨posonly', args', defaults', es', rfl, hparams', hd', hes'⟩

/-- The one item of a `with` is left alone or walked. -/
theorem woven_withItem (hdebug : plan.globalName ≠ "__debug__") {j : NodeId} {p : Place} {manager : Node}
    {t : List Tag} {n : Node} {e : Expr}
    (h : Woven plan marks first final (.mk j (.plain .withItem) p [.child manager, .none]) t n)
    (hm : ReadsExpr manager e)
    (ht : Obey labels t) (ha : e.fits (avoiding plan.globalName) = true) :
    ∃ manager' e', n = .mk j (.plain .withItem) p [.child manager', .none] ∧ ReadsExpr manager' e' ∧
      TracedExpr (tracingOf plan labels reads) e e' := by
  obtain ⟨rfl, rfl⟩ | ⟨fs', rfl, hfs⟩ := h.fields rfl
  · refine ⟨manager, e, rfl, hm, hm.left ha fun i hi ↦ (obey_hushTags (obey_cons.1 ht).2 ?_).2⟩
    simp [fieldsIds_cons, hi]
  · obtain ⟨t₁, t₂, f₁, f₂, rfl, rfl, h₁, h₂⟩ := hfs.two rfl rfl
    obtain ⟨manager', rfl, hwm⟩ := h₁.child_inv
    obtain ⟨rfl, rfl⟩ := h₂.atom_inv rfl
    obtain ⟨e', hm', he'⟩ := hm.woven hdebug hwm (obey_append.1 ht).1 ha
    exact ⟨manager', e', rfl, hm', he'⟩

mutual
/-- A woven statement is read as a tracing of what the statement is read as. -/
theorem ReadsStmt.woven (hdebug : plan.globalName ≠ "__debug__") {n n' : Node} {s : Stmt} {t : List Tag} :
    ReadsStmt n s → Woven plan marks first final n t n' → marks.holds n = false → n.isFutureImport = false →
      Obey labels t → s.fits (avoiding plan.globalName) = true →
      ∃ s', ReadsStmt n' s' ∧ TracedStmt (tracingOf plan labels reads) s s'
  | .exprStmt hn, hw, free, _, ht, ha => by
    obtain ⟨fs', rfl, hfs⟩ := hw.free_fields rfl free
    obtain ⟨f₁, rfl, h₁⟩ := hfs.one rfl
    obtain ⟨n', rfl, hwn⟩ := h₁.child_inv
    simp only [Stmt.fits, Bool.and_eq_true] at ha
    obtain ⟨e', hn', he'⟩ := hn.woven hdebug hwn ht ha.2
    exact ⟨_, .exprStmt hn', .expr he'⟩
  | .assign hxs hn, hw, free, _, ht, ha => by
    obtain ⟨fs', rfl, hfs⟩ := hw.free_fields rfl free
    obtain ⟨t₁, t₂, t₃, f₁, f₂, f₃, rfl, rfl, h₁, h₂, -⟩ := hfs.three rfl rfl rfl
    obtain ⟨targets', rfl, hxs'⟩ := steady_name?.field hxs h₁
    obtain ⟨n', rfl, hwn⟩ := h₂.child_inv
    simp only [obey_append] at ht
    simp only [Stmt.fits, Bool.and_eq_true] at ha
    obtain ⟨e', hn', he'⟩ := hn.woven hdebug hwn ht.2.1 ha.2
    exact ⟨_, .assign hxs' hn', .assign (not_own_names ha.1.2) he'⟩
  | .augAssign hx hop hn, hw, free, _, ht, ha => by
    obtain ⟨fs', rfl, hfs⟩ := hw.free_fields rfl free
    obtain ⟨t₁, t₂, t₃, f₁, f₂, f₃, rfl, rfl, h₁, h₂, h₃⟩ := hfs.three rfl rfl rfl
    obtain ⟨target', rfl, hwx⟩ := h₁.child_inv
    obtain ⟨op', rfl, hwop⟩ := h₂.child_inv
    obtain ⟨n', rfl, hwn⟩ := h₃.child_inv
    simp only [obey_append] at ht
    simp only [Stmt.fits, Bool.and_eq_true] at ha
    obtain ⟨e', hn', he'⟩ := hn.woven hdebug hwn ht.2.2 ha.2
    exact ⟨_, .augAssign (steady_name?.woven hx hwx) (steady_arith?.woven hop hwop) hn',
      .augment (not_own ha.1.2) he'⟩
  | .ifStmt htest hb ho, hw, free, _, ht, ha => by
    simp only [Stmt.fits, Bool.and_eq_true] at ha
    obtain ⟨⟨⟨-, hatest⟩, hab⟩, hao⟩ := ha
    cases hw with
    | marked held => simp_all [Marks.holds]
    | plain _ noRule => simp [hasRule] at noRule
    | ifStmt _ chain =>
      cases chain with
      | last _ hwt hwb arm₀ hwo arm₁ =>
        simp only [obey_append, obey_armTags_cons] at ht
        obtain ⟨⟨label₀, label₁, -⟩, ⟨ht₁, ht₂⟩, ht₃⟩ := ht
        obtain ⟨e', htest', he'⟩ := htest.woven hdebug hwt ht₁ hatest
        obtain ⟨ss₁, hb', hss₁⟩ := hb.woven hdebug hwb ht₂ hab
        obtain ⟨ss₂, ho', hss₂⟩ := ho.woven hdebug hwo ht₃ hao
        obtain ⟨ss₁', hb'', hss₁'⟩ := arm₀.traced hdebug label₀ hb' hss₁
        obtain ⟨ss₂', ho'', hss₂'⟩ := arm₁.traced hdebug label₁ ho' hss₂
        exact ⟨_, .ifStmt htest' hb'' ho'', .ifElse he' hss₁' hss₂'⟩
      | link _ walked hwt hwb arm next =>
        simp only [obey_append, obey_cons, obeys_label] at ht
        obtain ⟨⟨label₀, harms⟩, ⟨ht₁, ht₂⟩, label₁, started, ht₃⟩ := ht
        obtain ⟨e', htest', he'⟩ := htest.woven hdebug hwt ht₁ hatest
        obtain ⟨ss₁, hb', hss₁⟩ := hb.woven hdebug hwb ht₂ hab
        obtain ⟨ss₁', hb'', hss₁'⟩ := arm.traced hdebug label₀ hb' hss₁
        cases ho with
        | cons hlink hnil =>
          cases hnil
          simp only [blockFits, Bool.and_eq_true] at hao
          obtain ⟨s', hlink', hs'⟩ :=
            hlink.woven hdebug (.ifStmt (free_of_not_passesOver walked) next) (free_of_not_passesOver walked) rfl
              (obey_append.2 ⟨harms, ht₃⟩) hao.1
          exact ⟨_, .ifStmt htest' hb'' (.cons hlink' .nil),
            .ifElse he' hss₁' (.bare label₁ (.bare (hlink.id_eq ▸ started) hs' .nil))⟩
      | other noLink => simp [isLink] at noLink
  | .whileLoop htest hb ho, hw, free, _, ht, ha => by
    simp only [Stmt.fits, Bool.and_eq_true] at ha
    obtain ⟨⟨⟨-, hatest⟩, hab⟩, hao⟩ := ha
    cases hw with
    | marked held => simp_all [Marks.holds]
    | plain _ noRule => simp [hasRule] at noRule
    | whileLoop _ hwt hwb arm₀ hwo arm₁ =>
      simp only [obey_append, obey_armTags_cons] at ht
      obtain ⟨⟨label₀, label₁, -⟩, ⟨ht₁, ht₂⟩, ht₃⟩ := ht
      obtain ⟨e', htest', he'⟩ := htest.woven hdebug hwt ht₁ hatest
      obtain ⟨ss₁, hb', hss₁⟩ := hb.woven hdebug hwb ht₂ hab
      obtain ⟨ss₂, ho', hss₂⟩ := ho.woven hdebug hwo ht₃ hao
      obtain ⟨ss₁', hb'', hss₁'⟩ := arm₀.traced hdebug label₀ hb' hss₁
      obtain ⟨ss₂', ho'', hss₂'⟩ := arm₁.traced hdebug label₁ ho' hss₂
      exact ⟨_, .whileLoop htest' hb'' ho'', .whileLoop he' hss₁' hss₂'⟩
  | .forLoop hx hs hb ho, hw, free, _, ht, ha => by
    simp only [Stmt.fits, Bool.and_eq_true] at ha
    obtain ⟨⟨⟨⟨-, hax⟩, has⟩, hab⟩, hao⟩ := ha
    cases hw with
    | marked held => simp_all [Marks.holds]
    | plain _ noRule => simp [hasRule] at noRule
    | forLoop _ hwx hws hwb arm₀ hwo arm₁ =>
      simp only [obey_append, obey_armTags_cons] at ht
      obtain ⟨⟨label₀, label₁, -⟩, ⟨⟨ht₁, ht₂⟩, ht₃⟩, ht₄⟩ := ht
      obtain ⟨e', hs', he'⟩ := hs.woven hdebug hws ht₂ has
      obtain ⟨ss₁, hb', hss₁⟩ := hb.woven hdebug hwb ht₃ hab
      obtain ⟨ss₂, ho', hss₂⟩ := ho.woven hdebug hwo ht₄ hao
      obtain ⟨ss₁', hb'', hss₁'⟩ := arm₀.traced hdebug label₀ hb' hss₁
      obtain ⟨ss₂', ho'', hss₂'⟩ := arm₁.traced hdebug label₁ ho' hss₂
      exact ⟨_, .forLoop (steady_name?.woven hx hwx) hs' hb'' ho'', .forLoop (not_own hax) he' hss₁' hss₂'⟩
  | .breakStmt, hw, _, _, _, _ => by
    obtain ⟨fs', rfl⟩ := hw.shape
    exact ⟨_, .breakStmt, .breakLoop⟩
  | .continueStmt, hw, _, _, _, _ => by
    obtain ⟨fs', rfl⟩ := hw.shape
    exact ⟨_, .continueStmt, .continueLoop⟩
  | .pass, hw, _, _, _, _ => by
    obtain ⟨fs', rfl⟩ := hw.shape
    exact ⟨_, .pass, .pass⟩
  | .returnStmt he, hw, free, _, ht, ha => by
    obtain ⟨fs', rfl, hfs⟩ := hw.free_fields rfl free
    obtain ⟨f₁, rfl, h₁⟩ := hfs.one rfl
    simp only [Stmt.fits, Bool.and_eq_true] at ha
    obtain ⟨e', he', hte⟩ := he.woven hdebug h₁ ht ha.2
    exact ⟨_, .returnStmt he', .giveBack hte⟩
  | .functionDef hparams hd hb, hw, free, _, ht, ha => by
    simp only [Stmt.fits, Bool.and_eq_true] at ha
    obtain ⟨⟨⟨⟨-, hax⟩, hap⟩, had⟩, hab⟩ := ha
    cases hw with
    | marked held => simp_all [Marks.holds]
    | plain _ noRule => simp [hasRule] at noRule
    | functionDef _ hwds hwa hwb entry =>
      cases hwds
      simp only [obey_cons, obey_append, obeys_label] at ht
      obtain ⟨label, ⟨-, ht₂⟩, ht₃⟩ := ht
      obtain ⟨posonly', args', defaults', es', rfl, hparams', hd', hes'⟩ :=
        woven_parameters hdebug hwa hparams hd ht₂ had
      obtain ⟨ss₁, hb', hss₁⟩ := hb.woven hdebug hwb ht₃ hab
      obtain ⟨ss₂, hb'', hss₂⟩ := entry.traced hdebug label hwb ht₃ hb hb' hss₁
      exact ⟨_, .functionDef hparams' hd' hb'', .define (not_own hax) (not_own_names hap) hes' hss₂⟩
  | .global, hw, free, _, ht, ha => by
    obtain ⟨fs', rfl, hfs⟩ := hw.free_fields rfl free
    obtain ⟨f₁, rfl, h₁⟩ := hfs.one rfl
    obtain ⟨rfl, rfl⟩ := h₁.atom_inv rfl
    simp only [Stmt.fits, Bool.and_eq_true] at ha
    exact ⟨_, .global, .global (not_own_names ha.2)⟩
  | .raise he, hw, free, _, ht, ha => by
    obtain ⟨fs', rfl, hfs⟩ := hw.free_fields rfl free
    obtain ⟨t₁, t₂, f₁, f₂, rfl, rfl, h₁, h₂⟩ := hfs.two rfl rfl
    obtain ⟨rfl, rfl⟩ := h₂.atom_inv rfl
    simp only [obey_append] at ht
    simp only [Stmt.fits, Bool.and_eq_true] at ha
    obtain ⟨e', he', hte⟩ := he.woven hdebug h₁ ht.1 ha.2
    exact ⟨_, .raise he', .raise hte⟩
  | .tryStmt hb hh ho hf, hw, free, _, ht, ha => by
    simp only [Stmt.fits, Bool.and_eq_true] at ha
    obtain ⟨⟨⟨⟨-, hab⟩, hah⟩, hao⟩, haf⟩ := ha
    cases hw with
    | marked held => simp_all [Marks.holds]
    | plain _ noRule => simp [hasRule] at noRule
    | tryStmt _ hwb hwh hwo hwf arms =>
      simp only [obey_append, obey_armTags_cons] at ht
      obtain ⟨⟨label₀, label₁, -⟩, ⟨⟨ht₁, ht₂⟩, ht₃⟩, ht₄⟩ := ht
      obtain ⟨ss₁, hb', hss₁⟩ := hb.woven hdebug hwb ht₁ hab
      obtain ⟨hs', hh', hhs'⟩ := hh.woven hdebug hwh ht₂ hah
      obtain ⟨ss₂, ho', hss₂⟩ := ho.woven hdebug hwo ht₃ hao
      obtain ⟨ss₃, hf', hss₃⟩ := hf.woven hdebug hwf ht₄ haf
      obtain ⟨ss₁', hb'', hss₁'⟩ := arms.traced hdebug label₀ label₁ hb' hss₁
      exact ⟨_, .tryStmt hb'' hh' ho' hf', .attempt hss₁' hhs' hss₂ hss₃⟩
  | .matchStmt hs hc, hw, free, _, ht, ha => by
    simp only [Stmt.fits, Bool.and_eq_true] at ha
    cases hw with
    | marked held => simp_all [Marks.holds]
    | plain _ noRule => simp [hasRule] at noRule
    | matchStmt _ hws hwc rest _ =>
      simp only [obey_append] at ht
      obtain ⟨harms, ht₁, ht₂⟩ := ht
      obtain ⟨e', hs', he'⟩ := hs.woven hdebug hws ht₁ ha.1.2
      obtain ⟨more, rfl, hmore⟩ := rest.appended
      obtain ⟨cs', hc', hcs'⟩ := hc.woven hdebug hwc hmore harms ht₂ ha.2
      exact ⟨_, .matchStmt hs' hc', .choose he' hcs'⟩
  | .importFrom hxs, _, _, future, _, _ => by cases future
  | .withStmt hm hb, hw, free, _, ht, ha => by
    obtain ⟨fs', rfl, hfs⟩ := hw.free_fields rfl free
    obtain ⟨t₁, t₂, t₃, f₁, f₂, f₃, rfl, rfl, h₁, h₂, -⟩ := hfs.three rfl rfl rfl
    obtain ⟨items', rfl, hwitems⟩ := h₁.all_inv rfl
    obtain ⟨body', rfl, hwb⟩ := h₂.block_inv hb.starts
    simp only [Stmt.fits, Bool.and_eq_true] at ha
    cases hwitems with
    | cons hwitem hwnil =>
      cases hwnil
      simp only [obey_append] at ht
      obtain ⟨manager', e', rfl, hm', he'⟩ := woven_withItem hdebug hwitem hm ht.1.1 ha.1.2
      obtain ⟨ss', hb', hss'⟩ := hb.woven hdebug hwb ht.2.1 ha.2
      exact ⟨_, .withStmt hm' hb', .guarded he' hss'⟩

theorem ReadsBlock.woven (hdebug : plan.globalName ≠ "__debug__") {doc : Bool} {ns ns' : List Node} {ss : List Stmt}
    {t : List Tag} :
    ReadsBlock ns ss → WovenBlock plan marks first final doc ns t ns' → Obey labels t →
      blockFits (avoiding plan.globalName) ss = true →
      ∃ ss', ReadsBlock ns' ss' ∧ TracedBlock (tracingOf plan labels reads) ss ss'
  | .nil, hw, ht, ha => by
    cases hw
    exact ⟨[], .nil, .nil⟩
  | .cons hn hns, hw, ht, ha => by
    simp only [blockFits, Bool.and_eq_true] at ha
    cases hw with
    | skip hover _ hrest =>
      rw [obey_append] at ht
      obtain ⟨started, hs⟩ := hn.left ha.1 ht.1
      obtain ⟨ss', hns', hss'⟩ := hns.woven hdebug hrest ht.2 ha.2
      exact ⟨_, .cons hn hns', .bare started hs hss'⟩
    | gap => cases hn
    | stmt walked _ hw hrest counted =>
      simp only [obey_cons, obey_append, obeys_label] at ht
      obtain ⟨started, ht₁, ht₂⟩ := ht
      simp only [passesOver, Bool.or_eq_false_iff] at walked
      obtain ⟨⟨⟨free, -⟩, -⟩, future⟩ := walked
      obtain ⟨s', hn', hs'⟩ := hn.woven hdebug hw free future ht₁ ha.1
      obtain ⟨ss', hns', hss'⟩ := hns.woven hdebug hrest ht₂ ha.2
      cases counted with
      | bare => exact ⟨_, .cons hn' hns', .bare (hn.id_eq ▸ started) hs' hss'⟩
      | front =>
        exact ⟨_, .cons (reads_counter hdebug ..) (.cons hn' hns'), .counted (hn.id_eq ▸ started) hs' hss'⟩

theorem ReadsHandlers.woven (hdebug : plan.globalName ≠ "__debug__") {ns ns' : List Node} {hs : List Handler}
    {t : List Tag} :
    ReadsHandlers ns hs → WovenHandlers plan marks first final ns t ns' → Obey labels t →
      handlersFit (avoiding plan.globalName) hs = true →
      ∃ hs', ReadsHandlers ns' hs' ∧ TracedHandlers (tracingOf plan labels reads) hs hs'
  | .stop hstop, hw, ht, ha => by
    refine ⟨[], .stop ?_, .nil⟩
    cases hw with
    | other => exact hstop
    | @cons i c => cases c <;> first | rfl | simp [handlers] at hstop
  | .cons htypes hx hb hns, hw, ht, ha => by
    simp only [handlersFit, Bool.and_eq_true] at ha
    obtain ⟨⟨⟨hat, hax⟩, hab⟩, hans⟩ := ha
    cases hw with
    | other noHandler => cases noHandler
    | cons _ hwt hwb hwrest =>
      simp only [obey_append] at ht
      obtain ⟨⟨ht₁, ht₂⟩, ht₃⟩ := ht
      obtain ⟨e', htypes', he'⟩ := htypes.woven hdebug hwt ht₁ hat
      obtain ⟨ss', hb', hss'⟩ := hb.woven hdebug hwb ht₂ hab
      obtain ⟨hs', hns', hhs'⟩ := hns.woven hdebug hwrest ht₃ hans
      refine ⟨_, .cons htypes' hx hb' hns', .cons he' ?_ hss' hhs'⟩
      rintro x rfl
      exact not_own hax

/-- Cases are arms, and the last one can be injected. -/
theorem ReadsCases.woven (hdebug : plan.globalName ≠ "__debug__") {ns ns' more : List Node} {cs : List Case}
    {t : List Tag} {keys : List (Option Key)} {key : Option Key} {i : NodeId} {a : Nat} :
    ReadsCases ns cs → WovenCases plan marks first final keys ns t ns' → Fallback plan key more →
      Obey labels (armTags i a (keys ++ [key])) → Obey labels t → casesFit (avoiding plan.globalName) cs = true →
      ∃ cs', ReadsCases (ns' ++ more) cs' ∧ TracedCases (tracingOf plan labels reads) i a cs cs'
  | .stop hstop, hw, hmore, harms, ht, ha => by
    cases hw with
    | nil =>
      simp only [List.nil_append, obey_armTags_cons] at harms
      cases hmore with
      | none => exact ⟨[], .stop rfl, .nil harms.1⟩
      | some =>
        exact ⟨_, .cons .wildcard (.other rfl) (.cons (reads_counter hdebug ..) .nil) (.stop rfl),
          .fallback harms.1⟩
    | cons => simp [cases] at hstop
  | .cons hp hg hb hns, hw, hmore, harms, ht, ha => by
    simp only [casesFit, Bool.and_eq_true] at ha
    obtain ⟨⟨⟨hap, hag⟩, hab⟩, hans⟩ := ha
    cases hw with
    | cons _ hwg hwb arm hwrest =>
      simp only [List.cons_append, obey_armTags_cons] at harms
      simp only [obey_append] at ht
      obtain ⟨⟨⟨ht₁, ht₂⟩, ht₃⟩, ht₄⟩ := ht
      obtain ⟨g', hg', htg'⟩ := hg.woven hdebug hwg ht₂ hag
      obtain ⟨ss', hb', hss'⟩ := hb.woven hdebug hwb ht₃ hab
      obtain ⟨ss'', hb'', hss''⟩ := arm.traced hdebug harms.1 hb' hss'
      obtain ⟨cs', hns', hcs'⟩ := hns.woven hdebug hwrest hmore harms.2 ht₄ hans
      exact ⟨_, .cons hp hg' hb'' hns', .cons (hp.left hap ht₁) htg' hss'' hcs'⟩
end

/-! ## Modules -/

/-- The text that a statement consists of. -/
def Stmt.text? : Stmt → Option String
  | .expr _ (.const (.str s)) => some s
  | _ => none

/-- The text that a block starts with. -/
def opening (ss : List Stmt) : Option String := ss.head?.bind Stmt.text?

theorem ReadsBlock.docstring?_eq {ns : List Node} {ss : List Stmt} (h : ReadsBlock ns ss) :
    docstring? ns = opening ss := by
  cases h with
  | nil => rfl
  | cons hn _ =>
    cases hn with
    | exprStmt he =>
      cases he with
      | @constant i p c f l hc => cases c <;> cases hc <;> rfl
      | name =>
        unfold Expr.ofName
        split <;> rfl
      | _ => rfl
    | _ => rfl

theorem TracedBlock.opening_eq_none {ss ss' : List Stmt} (h : TracedBlock (tracingOf plan labels reads) ss ss')
    (hnone : opening ss = none) : opening ss' = none := by
  cases h with
  | nil => rfl
  | bare _ hs _ =>
    cases hs with
    | expr he =>
      cases he with
      | const => exact hnone
      | _ => rfl
    | _ => rfl
  | counted => rfl

theorem docstring?_eq_none {ns : List Node} (h : startsWithDocstring ns = false) : docstring? ns = none := by
  unfold docstring?
  split
  next => cases h
  next => rfl

/-- The docstring of a module stays. -/
theorem opening_woven {body b : List Node} {t : List Tag} {ss ss' : List Stmt}
    (hw : WovenBlock plan marks first final true body t b) (hbody : ReadsBlock body ss) (hb : ReadsBlock b ss')
    (hss : TracedBlock (tracingOf plan labels reads) ss ss') : opening ss' = opening ss := by
  cases hdoc : startsWithDocstring body with
  | true =>
    obtain ⟨d, rest, t', rest', -, rfl, rfl, -⟩ := hw.docstring hdoc
    cases hbody with
    | cons hd _ =>
      cases hb with
      | cons hd' _ =>
        obtain rfl := hd.eq.symm.trans hd'.eq
        rfl
  | false =>
    have hnone : opening ss = none := hbody.docstring?_eq ▸ docstring?_eq_none hdoc
    rw [hnone]
    exact hss.opening_eq_none hnone

variable (reads) in
/-- A woven module is read as the traced program. -/
theorem ofTree?_woven (hdebug : plan.globalName ≠ "__debug__") {i : NodeId} {p : Place} {body : List Node}
    {ignores : Field} {t : List Tag} {n : Node}
    (hw : Woven plan marks first final (.mk i .module p [.many body, ignores]) t n) (ht : Obey labels t)
    (ha : blockFits (avoiding plan.globalName) (block body) = true) (outer : Place) :
    ∃ ss, Program.ofTree? (n.fillPlaces outer) = some ⟨docstring? body, ss⟩ ∧
      TracedBlock (tracingOf plan labels reads) (block body) ss := by
  have hbody : ReadsBlock body (block body) := reads_block body ha
  obtain ⟨b, ignores', ss, rfl, hb, hss, hopening⟩ : ∃ b ignores' ss, n = .mk i .module p [.many b, ignores'] ∧
      ReadsBlock b ss ∧ TracedBlock (tracingOf plan labels reads) (block body) ss ∧
        opening ss = opening (block body) := by
    cases hw with
    | marked held =>
      have hquiet : Obey labels (hushTags (nodesIds body)) := fun tag htag ↦
        (obey_cons.1 ht).2 tag (by simp_all [hushTags, fieldsIds_cons])
      exact ⟨body, ignores, _, rfl, hbody, hbody.left ha hquiet, rfl⟩
    | module _ hwb =>
      obtain ⟨ss, hb, hss⟩ := hbody.woven hdebug hwb ht ha
      exact ⟨_, _, ss, rfl, hb, hss, opening_woven hwb hbody hb hss⟩
    | plain _ noRule => simp [hasRule] at noRule
  refine ⟨ss, ?_, hss⟩
  have hfilled : ReadsBlock (fillNodes (NodeClass.innerPlace .module p outer) b) ss := hb.fill _
  simp [Program.ofTree?, hfilled.eq, hfilled.docstring?_eq, hopening, hbody.docstring?_eq]

end Statements

end Coverage.Program
