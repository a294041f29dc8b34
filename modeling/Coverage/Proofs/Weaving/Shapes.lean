import Coverage.Proofs.Pass.Woven
import Coverage.Proofs.Program.Reads
import Coverage.Proofs.Program.Traced

/-!
# Shapes of woven nodes

What a woven node looks like when the node it stems from is known, and how probes are read: each as the
counter of a traced program that belongs to its label.
-/

namespace Coverage.Pass

open Syntax Program

variable {t : List Tag} {i : NodeId} {ns ns' : List Node} {key : Option Key} {n : Node} {names : List String}
  {f f₁ : Field} {fs fs' : List Field} {c : NodeClass} {event : Event} {p : Place} {ss ss' : List Stmt} {n₁ : String}

/-! ## Labels -/

/-- The tag says what the labels say. -/
def Tag.Obeys (labels : Event → Option Key → Prop) : Tag → Prop
  | .label event key => labels event key
  | .silent i => labels (.entered i) none ∧ ∀ a, labels (.took i a) none

/-- All tags say what the labels say. -/
def Obey (labels : Event → Option Key → Prop) (tags : List Tag) : Prop := ∀ tag ∈ tags, tag.Obeys labels

def tracingOf (plan : Plan) (labels : Event → Option Key → Prop) (reads : Prop) : Tracing :=
  ⟨plan.globalName, plan.filename, labels, reads, True, fun _ ↦ trivial⟩

section Obey

variable {labels : Event → Option Key → Prop} {reads : Prop} {a b : List Tag}

@[simp]
theorem obey_nil : Obey labels [] := by simp [Obey]

@[simp]
theorem obey_append : Obey labels (a ++ b) ↔ Obey labels a ∧ Obey labels b := by
  simp [Obey, or_imp, forall_and]

@[simp]
theorem obey_cons {tag : Tag} : Obey labels (tag :: a) ↔ tag.Obeys labels ∧ Obey labels a := by
  simp [Obey]

@[simp]
theorem obeys_label : (Tag.label event key).Obeys labels ↔ labels event key :=
  Iff.rfl

@[simp]
theorem obey_armTags_nil {n : Nat} : Obey labels (armTags i n []) := by simp [armTags]

@[simp]
theorem obey_armTags_cons {n : Nat} {keys : List (Option Key)} :
    Obey labels (armTags i n (key :: keys)) ↔ labels (.took i n) key ∧ Obey labels (armTags i (n + 1) keys) := by
  simp [armTags]

variable {plan : Plan}

theorem obeys_silent (h : (Tag.silent i).Obeys labels) : (tracingOf plan labels reads).Silent i :=
  ⟨h.1, h.2⟩

/-- About silent nodes nothing is counted. -/
theorem obey_hushTags {ids : List NodeId} (h : Obey labels (hushTags ids)) (hi : i ∈ ids) :
    labels (.started i) none ∧ (tracingOf plan labels reads).Silent i := by
  have hstarted : Tag.label (.started i) none ∈ hushTags ids := List.mem_flatMap.2 ⟨i, hi, by simp⟩
  have hsilent : Tag.silent i ∈ hushTags ids := List.mem_flatMap.2 ⟨i, hi, by simp⟩
  exact ⟨h _ hstarted, obeys_silent (h _ hsilent)⟩

end Obey

/-! ## Shapes of woven nodes -/

section Shapes

variable {plan : Plan} {marks : Marks} {first : NodeId} {final : Marks}

theorem Woven.shape (h : Woven plan marks first final (.mk i c p fs) t n) : ∃ fs', n = .mk i c p fs' := by
  cases h with
  | ifStmt _ chain => cases chain <;> exact ⟨_, rfl⟩
  | _ => exact ⟨_, rfl⟩

/-- A node for which there is no rule is left alone or walked field by field. -/
theorem Woven.fields (h : Woven plan marks first final (.mk i c p fs) t n) (noRule : hasRule c fs = false) :
    n = .mk i c p fs ∧ t = .silent i :: hushTags (fieldsIds fs) ∨
      ∃ fs', n = .mk i c p fs' ∧ WovenFields plan marks first final c.fieldNames fs t fs' := by
  cases h with
  | marked => exact .inl ⟨rfl, rfl⟩
  | plain _ _ hfs => exact .inr ⟨_, rfl, hfs⟩
  | _ => simp [hasRule] at noRule

/-- A node without a rule of its own is woven field by field. -/
theorem Woven.free_fields (h : Woven plan marks first final (.mk i c p fs) t n) (noRule : hasRule c fs = false)
    (free : marks.contains i = false) :
    ∃ fs', n = .mk i c p fs' ∧ WovenFields plan marks first final c.fieldNames fs t fs' := by
  cases h with
  | marked held => simp [free] at held
  | plain _ _ hfs => exact ⟨_, rfl, hfs⟩
  | _ => simp [hasRule] at noRule

theorem WovenFields.cons_inv {name : String} (h : WovenFields plan marks first final (name :: names) (f :: fs) t fs')
    (into : isSkippedField name = false) :
    ∃ t₁ t₂ f' rest, t = t₁ ++ t₂ ∧ fs' = f' :: rest ∧ WovenField plan marks first final f t₁ f' ∧
      WovenFields plan marks first final names fs t₂ rest := by
  cases h with
  | skipped hover _ hfs => simp [into] at hover
  | walked _ hf hfs => exact ⟨_, _, _, _, rfl, rfl, hf, hfs⟩

theorem WovenFields.nil_inv (h : WovenFields plan marks first final names [] t fs') : t = [] ∧ fs' = [] := by
  cases h <;> exact ⟨rfl, rfl⟩

theorem WovenFields.one (h : WovenFields plan marks first final (n₁ :: names) [f₁] t fs')
    (into₁ : isSkippedField n₁ = false) : ∃ f₁', fs' = [f₁'] ∧ WovenField plan marks first final f₁ t f₁' := by
  obtain ⟨t₁, t₂, f₁', rest, rfl, rfl, h₁, hrest⟩ := h.cons_inv into₁
  obtain ⟨rfl, rfl⟩ := hrest.nil_inv
  exact ⟨f₁', rfl, by rwa [List.append_nil]⟩

theorem WovenFields.two {n₂ : String} {f₂ : Field}
    (h : WovenFields plan marks first final (n₁ :: n₂ :: names) [f₁, f₂] t fs') (into₁ : isSkippedField n₁ = false)
    (into₂ : isSkippedField n₂ = false) :
    ∃ t₁ t₂ f₁' f₂', t = t₁ ++ t₂ ∧ fs' = [f₁', f₂'] ∧ WovenField plan marks first final f₁ t₁ f₁' ∧
      WovenField plan marks first final f₂ t₂ f₂' := by
  obtain ⟨t₁, t₂, f₁', rest, rfl, rfl, h₁, hrest⟩ := h.cons_inv into₁
  obtain ⟨f₂', rfl, h₂⟩ := hrest.one into₂
  exact ⟨t₁, t₂, f₁', f₂', rfl, rfl, h₁, h₂⟩

theorem WovenFields.three {n₂ n₃ : String} {f₂ f₃ : Field}
    (h : WovenFields plan marks first final (n₁ :: n₂ :: n₃ :: names) [f₁, f₂, f₃] t fs')
    (into₁ : isSkippedField n₁ = false) (into₂ : isSkippedField n₂ = false) (into₃ : isSkippedField n₃ = false) :
    ∃ t₁ t₂ t₃ f₁' f₂' f₃', t = t₁ ++ (t₂ ++ t₃) ∧ fs' = [f₁', f₂', f₃'] ∧ WovenField plan marks first final f₁ t₁ f₁' ∧
      WovenField plan marks first final f₂ t₂ f₂' ∧ WovenField plan marks first final f₃ t₃ f₃' := by
  obtain ⟨t₁, t₂, f₁', rest, rfl, rfl, h₁, hrest⟩ := h.cons_inv into₁
  obtain ⟨t₂, t₃, f₂', f₃', rfl, rfl, h₂, h₃⟩ := hrest.two into₂ into₃
  exact ⟨t₁, t₂, t₃, f₁', f₂', f₃', rfl, rfl, h₁, h₂, h₃⟩

theorem WovenField.child_inv (h : WovenField plan marks first final (.child n) t f) :
    ∃ n', f = .child n' ∧ Woven plan marks first final n t n' := by
  cases h with
  | child hn => exact ⟨_, rfl, hn⟩
  | atom holdsNone => cases holdsNone

theorem WovenField.all_inv (h : WovenField plan marks first final (.many ns) t f) (starts : startsBlock ns = false) :
    ∃ ns', f = .many ns' ∧ WovenAll plan marks first final ns t ns' := by
  cases h with
  | block starts' => simp [starts] at starts'
  | all _ hns => exact ⟨_, rfl, hns⟩
  | atom holdsNone => cases holdsNone

theorem WovenField.block_inv (h : WovenField plan marks first final (.many ns) t f)
    (starts : startsBlock ns = true ∨ ns = []) :
    ∃ ns', f = .many ns' ∧ WovenBlock plan marks first final false ns t ns' := by
  cases h with
  | block _ hns => exact ⟨_, rfl, hns⟩
  | all starts' hns =>
    rcases starts with starts | rfl
    · simp [starts] at starts'
    · cases hns
      exact ⟨_, rfl, .nil⟩
  | atom holdsNone => cases holdsNone

theorem WovenField.atom_inv {f' : Field} (h : WovenField plan marks first final f t f') (holdsNone : isAtom f = true) :
    t = [] ∧ f' = f := by
  cases h with
  | atom => exact ⟨rfl, rfl⟩
  | _ => cases holdsNone

/-- A part of a node that is read off leaves stays as it is. -/
structure Steady {β : Type} (plan : Plan) (marks : Marks) (first : NodeId) (final : Marks)
    (f : Node → Option β) : Prop where
  woven : ∀ {n t n' b}, f n = some b → Woven plan marks first final n t n' → f n' = some b
  leaf : ∀ {n b}, f n = some b → n.isStatement = false

/-- A function that does not look at the fields of a node is steady. -/
theorem steady_of_mk {β : Type} {f : Node → Option β} (hgap : f .gap = none)
    (hmk : ∀ i c p fs fs', f (.mk i c p fs) = f (.mk i c p fs'))
    (leaf : ∀ {n b}, f n = some b → n.isStatement = false) : Steady plan marks first final f where
  woven {n t n' b} hn hw := by
    cases n with
    | gap => simp [hgap] at hn
    | mk i c p fs =>
      obtain ⟨fs', rfl⟩ := hw.shape
      rw [← hn]
      exact hmk ..
  leaf := leaf

theorem steady_arith? : Steady plan marks first final arith? := by
  refine steady_of_mk rfl (fun _ _ _ _ _ ↦ arith?_mk ..) fun h ↦ ?_
  unfold arith? at h
  split at h <;> first | rfl | cases h

theorem steady_relation? : Steady plan marks first final relation? := by
  refine steady_of_mk rfl (fun _ _ _ _ _ ↦ relation?_mk ..) fun h ↦ ?_
  unfold relation? at h
  split at h <;> first | rfl | cases h

theorem steady_unary? : Steady plan marks first final unary? := by
  refine steady_of_mk rfl (fun _ _ _ _ _ ↦ unary?_mk ..) fun h ↦ ?_
  unfold unary? at h
  split at h <;> first | rfl | cases h

/-- A first field that holds a text stays. -/
theorem Woven.text_first {x : String} {name : String}
    (h : Woven plan marks first final (.mk i c p (.text x :: fs)) t n) (noRule : hasRule c (.text x :: fs) = false)
    (hnames : c.fieldNames = name :: names) (into : isSkippedField name = false) :
    ∃ fs' t', n = .mk i c p (.text x :: fs') ∧ (fs' = fs ∨ WovenFields plan marks first final names fs t' fs') := by
  obtain ⟨rfl, rfl⟩ | ⟨fs', rfl, hfs⟩ := h.fields noRule
  · exact ⟨fs, [], rfl, .inl rfl⟩
  · rw [hnames] at hfs
    obtain ⟨t₁, t₂, f', rest, rfl, rfl, hf, hrest⟩ := hfs.cons_inv into
    obtain ⟨rfl, rfl⟩ := hf.atom_inv rfl
    exact ⟨rest, t₂, rfl, .inr hrest⟩

theorem steady_name? : Steady plan marks first final name? where
  woven {n t n' x} hn hw := by
    unfold name? at hn
    split at hn
    next i p x f =>
      cases hn
      obtain ⟨fs', t', rfl, hfs⟩ := hw.text_first rfl rfl rfl
      rcases hfs with rfl | hfs
      · rfl
      · obtain ⟨_, _, f', rest, rfl, rfl, -, hrest⟩ := hfs.cons_inv rfl
        obtain ⟨-, rfl⟩ := hrest.nil_inv
        rfl
    next => cases hn
  leaf {n x} hn := by
    unfold name? at hn
    split at hn
    · rfl
    · cases hn

theorem steady_param? : Steady plan marks first final param? where
  woven {n t n' x} hn hw := by
    unfold param? at hn
    split at hn
    next i p x f =>
      cases hn
      obtain ⟨fs', t', rfl, hfs⟩ := hw.text_first rfl rfl rfl
      rcases hfs with rfl | hfs
      · rfl
      · cases hfs with
        | skipped _ _ hrest =>
          obtain ⟨_, _, f', rest, rfl, rfl, -, hrest⟩ := hrest.cons_inv rfl
          obtain ⟨-, rfl⟩ := hrest.nil_inv
          rfl
        | walked into => cases into
    next => cases hn
  leaf {n x} hn := by
    unfold param? at hn
    split at hn
    · rfl
    · cases hn

/-- What weaving does not change, it does not in lists. -/
theorem Steady.mapM {β : Type} {f : Node → Option β} (hf : Steady plan marks first final f) {bs : List β}
    (h : ns.mapM f = some bs) (hw : WovenAll plan marks first final ns t ns') : ns'.mapM f = some bs := by
  induction ns generalizing bs t ns' with
  | nil =>
    cases hw
    exact h
  | cons n ns ih =>
    cases hw with
    | cons hn hns =>
      simp only [List.mapM_cons, Option.bind_eq_bind, Option.bind_eq_some_iff, Option.pure_def] at h
      obtain ⟨b, hb, rest, hrest, h⟩ := h
      simp [hf.woven hb hn, ih hrest hns, h]

/-- A list of leaves is not a block. -/
theorem Steady.field {β : Type} {f : Node → Option β} (hf : Steady plan marks first final f) {bs : List β} {g : Field}
    (h : ns.mapM f = some bs) (hw : WovenField plan marks first final (.many ns) t g) :
    ∃ ns', g = .many ns' ∧ ns'.mapM f = some bs := by
  have starts : startsBlock ns = false := by
    cases ns with
    | nil => rfl
    | cons n ns =>
      simp only [List.mapM_cons, Option.bind_eq_bind, Option.bind_eq_some_iff] at h
      obtain ⟨b, hb, -⟩ := h
      exact hf.leaf hb
  obtain ⟨ns', rfl, hns⟩ := hw.all_inv starts
  exact ⟨ns', rfl, hf.mapM h hns⟩

theorem Steady.append {β : Type} {f : Node → Option β} (hf : Steady plan marks first final f) {ms : List Node}
    {bs : List β} {t' : List Tag} {g g' : Field} (h : (ns ++ ms).mapM f = some bs)
    (hn : WovenField plan marks first final (.many ns) t g) (hm : WovenField plan marks first final (.many ms) t' g') :
    ∃ ns' ms', g = .many ns' ∧ g' = .many ms' ∧ (ns' ++ ms').mapM f = some bs := by
  simp only [List.mapM_append, Option.bind_eq_bind, Option.bind_eq_some_iff] at h
  obtain ⟨bs₁, h₁, bs₂, h₂, h⟩ := h
  obtain ⟨ns', rfl, h₁⟩ := hf.field h₁ hn
  obtain ⟨ms', rfl, h₂⟩ := hf.field h₂ hm
  exact ⟨ns', ms', rfl, rfl, by simpa [List.mapM_append, h₁, h₂] using h⟩

end Shapes

/-! ## Probes -/

section Probes

variable {plan : Plan} {first : NodeId} {final : Marks} {labels : Event → Option Key → Prop}
  {reads : Prop}

theorem reads_arguments (place : Place) (j : NodeId) (texts : List String) :
    ReadsExprs (Probe.arguments place j texts) (texts.map fun s ↦ .const (.str s)) := by
  induction texts generalizing j with
  | nil => exact .nil
  | cons s texts ih => exact .cons (.constant rfl) (ih (j + 1))

/-- An injected call is read as a call of the ledger. -/
theorem reads_call (hdebug : plan.globalName ≠ "__debug__") (method : String) (keys : List Key) (place : Place)
    (j : NodeId) :
    ReadsExpr (Probe.call plan method keys place j) ((tracingOf plan labels reads).call method keys) := by
  have hname : Expr.ofName plan.globalName = .name plan.globalName := if_neg hdebug
  refine .call (.attr ?_) (reads_arguments ..)
  change ReadsExpr _ (.name plan.globalName)
  rw [← hname]
  exact .name

theorem reads_counter (hdebug : plan.globalName ≠ "__debug__") (k : Key) (place : Place) (j : NodeId) :
    ReadsStmt (Probe.counter plan k place j) ((tracingOf plan labels reads).counter j k) :=
  .exprStmt (reads_call hdebug ..)

/-- A wrapped expression is read as an arm with a counter. -/
theorem Wrapped.traced (hdebug : plan.globalName ≠ "__debug__") {n' : Node} {e e' : Expr}
    (h : Wrapped plan first final key n n') (label : labels event key) (hn : ReadsExpr n e')
    (he : TracedExpr (tracingOf plan labels reads) e e') :
    ∃ e'', ReadsExpr n' e'' ∧ TracedArm (tracingOf plan labels reads) event e e'' := by
  cases h with
  | bare => exact ⟨e', hn, .bare label he⟩
  | wrapped =>
    exact ⟨_, .boolOp rfl (.cons (reads_call hdebug ..) (.cons hn .nil)), .counted label he⟩

/-- A counted block is read as a clause with a counter. -/
theorem Counted.traced (hdebug : plan.globalName ≠ "__debug__") {place : Place}
    (h : Counted plan first final key place ns ns') (label : labels event key) (hns : ReadsBlock ns ss')
    (hss : TracedBlock (tracingOf plan labels reads) ss ss') :
    ∃ ss'', ReadsBlock ns' ss'' ∧ TracedClause (tracingOf plan labels reads) event ss ss'' := by
  cases h with
  | bare => exact ⟨ss', hns, .bare label hss⟩
  | front => exact ⟨_, .cons (reads_counter hdebug ..) hns, .counted label hss⟩

/-- A block that starts with a docstring is traced behind it. -/
theorem traced_behind {d : Node} {rest rest' : List Node} (hd : d.isDocstring = true)
    (hbody : ReadsBlock (d :: rest) ss) (hb : ReadsBlock (d :: rest') ss')
    (hss : TracedBlock (tracingOf plan labels reads) ss ss') (ht : Obey labels (hushTags d.ids)) :
    ∃ i c tail tail', ss = .expr i (.const c) :: tail ∧ ss' = .expr i (.const c) :: tail' ∧
      labels (.started i) none ∧ ReadsBlock rest' tail' ∧ TracedBlock (tracingOf plan labels reads) tail tail' := by
  cases hbody with
  | cons hs _ =>
    cases hb with
    | cons hs' hrest' =>
      obtain ⟨i, c, rfl⟩ := hs.docstring hd
      obtain rfl := hs'.eq.symm.trans hs.eq
      have quiet : labels (.started i) none ∧ (tracingOf plan labels reads).Silent i := obey_hushTags ht hs.id_mem
      cases hss with
      | bare _ _ htail => exact ⟨i, c, _, _, rfl, rfl, quiet.1, hrest', htail⟩

theorem Entered.behind_docstring {k : Key} {d : Node} {rest b : List Node}
    (h : Entered plan first final (some k) true (d :: rest) b) :
    ∃ place j, b = d :: Probe.counter plan k place j :: rest := by
  cases h <;> exact ⟨_, _, rfl⟩

/-- The counter of a function stands behind the docstring of its body. -/
theorem Entered.traced (hdebug : plan.globalName ≠ "__debug__") {marks : Marks} {body b b' : List Node}
    (h : Entered plan first final key (startsWithDocstring body) b b') (label : labels event key)
    (hw : WovenBlock plan marks first final true body t b) (ht : Obey labels t) (hbody : ReadsBlock body ss)
    (hb : ReadsBlock b ss') (hss : TracedBlock (tracingOf plan labels reads) ss ss') :
    ∃ ss'', ReadsBlock b' ss'' ∧ TracedBody (tracingOf plan labels reads) event ss ss'' := by
  cases key with
  | none =>
    cases h
    exact ⟨ss', hb, .clause (.bare label hss)⟩
  | some k =>
    cases hdoc : startsWithDocstring body with
    | false =>
      rw [hdoc] at h
      cases h
      exact ⟨_, .cons (reads_counter hdebug ..) hb, .clause (.counted label hss)⟩
    | true =>
      rw [hdoc] at h
      obtain ⟨d, rest, t', rest', hd, rfl, rfl, rfl, -⟩ := hw.docstring hdoc
      obtain ⟨place, j, rfl⟩ := h.behind_docstring
      obtain ⟨i, c, tail, tail', rfl, rfl, quiet, hrest', htail⟩ := traced_behind hd hbody hb hss (obey_append.1 ht).1
      cases hbody with
      | cons hs _ => exact ⟨_, .cons hs (.cons (reads_counter hdebug ..) hrest'), .behind quiet label htail⟩

/-- A guarded block is read as one that counts how it ends. -/
theorem Guarded.traced (hdebug : plan.globalName ≠ "__debug__") {ok error : Option Key}
    (h : Guarded plan first final ok error ns ns') (label₀ : labels (.took i 0) ok)
    (label₁ : labels (.took i 1) error) (hns : ReadsBlock ns ss')
    (hss : TracedBlock (tracingOf plan labels reads) ss ss') :
    ∃ ss'', ReadsBlock ns' ss'' ∧ TracedTry (tracingOf plan labels reads) i ss ss'' := by
  cases h with
  | bare => exact ⟨ss', hns, .bare label₀ label₁ hss⟩
  | guarded => exact ⟨_, .cons (.withStmt (reads_call hdebug ..) hns) .nil, .counted label₀ label₁ hss⟩

/-- What is added to the cases of a `match`. -/
inductive Fallback (plan : Plan) : Option Key → List Node → Prop
  | none : Fallback plan none []
  | some {k place j} : Fallback plan (some k) [Probe.fallback plan k place j]

theorem Completed.appended {place : Place} {cs cs' : List Node} (h : Completed plan first final key place cs cs') :
    ∃ more, cs' = cs ++ more ∧ Fallback plan key more := by
  cases h with
  | bare => exact ⟨[], (List.append_nil _).symm, .none⟩
  | fallback => exact ⟨_, rfl, .some⟩

end Probes

end Coverage.Pass
