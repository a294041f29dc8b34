import Coverage.Proofs.Validity.Nodes
import Coverage.Proofs.Validity.Rules

/-!
# Static validity

A pass keeps each of the rules for source text, every body has the docstring that it had before, and no place is missing
in the result.
-/

namespace Coverage.Pass

open Syntax Program

variable {t : List Tag} {n n' : Node} {b b' body cs cs' : List Node} {key : Option Key} {doc : Bool} {fs : List Field}
  {keys : List (Option Key)} {f f' : Field} {p place : Place}

variable {plan : Plan} {marks : Marks} {first : NodeId} {final : Marks} {E : Node → Prop}

/-! ## Lists that stay filled -/

theorem Counted.ne_nil (h : Counted plan first final key place b b') (hb : b ≠ []) : b' ≠ [] := by
  cases h with
  | bare => exact hb
  | front => simp

theorem Entered.ne_nil (h : Entered plan first final key doc b b') (hb : b ≠ []) : b' ≠ [] := by
  cases h with
  | bare => exact hb
  | _ => simp

theorem Guarded.ne_nil {k₀ k₁ : Option Key} (h : Guarded plan first final k₀ k₁ b b') (hb : b ≠ []) : b' ≠ [] := by
  cases h with
  | bare => exact hb
  | guarded => simp

theorem Completed.ne_nil (h : Completed plan first final key place cs cs') (hcs : cs ≠ []) : cs' ≠ [] := by
  cases h with
  | bare => exact hcs
  | fallback => simp

theorem WovenAll.ne_nil {ns ns' : List Node} (h : WovenAll plan marks first final ns t ns') (hns : ns ≠ []) :
    ns' ≠ [] := by
  cases h with
  | nil => exact hns
  | cons => simp

theorem WovenHandlers.ne_nil {hs hs' : List Node} (h : WovenHandlers plan marks first final hs t hs') (hhs : hs ≠ []) :
    hs' ≠ [] := by
  cases h with
  | other => exact hhs
  | cons => simp

theorem WovenCases.ne_nil (h : WovenCases plan marks first final keys cs t cs') (hcs : cs ≠ []) : cs' ≠ [] := by
  cases h with
  | nil => exact hcs
  | cons => simp

theorem WovenOperands.length_eq {vs ws : List Node} (h : WovenOperands plan marks first final keys vs t ws) :
    ws.length = vs.length := by
  induction vs generalizing keys t ws with
  | nil =>
    cases h
    rfl
  | cons v vs ih =>
    cases h with
    | cons _ _ hvs => simp [ih hvs]

theorem WovenOperands.ne_nil {vs ws : List Node} (h : WovenOperands plan marks first final keys vs t ws)
    (hvs : vs ≠ []) : ws ≠ [] := by
  rw [← List.length_pos_iff] at hvs ⊢
  rw [h.length_eq]
  exact hvs

theorem WovenField.swollen (h : WovenField plan marks first final f t f') : Swollen f f' := by
  cases h with
  | child => exact .child
  | block _ hns => exact .many hns.ne_nil
  | all _ hns => exact .many hns.ne_nil
  | atom => exact .same

theorem WovenFields.swollen {names : List String} {fs' : List Field}
    (h : WovenFields plan marks first final names fs t fs') : List.Forall₂ Swollen fs fs' := by
  induction fs generalizing names t fs' with
  | nil => cases h <;> exact .nil
  | cons f fs ih =>
    cases h with
    | beyond => exact swollen_same _
    | skipped _ _ hfs => exact .cons .same (ih hfs)
    | walked _ hf hfs => exact .cons hf.swollen (ih hfs)

theorem WovenChain.swollen {i : NodeId} {arms : List Tag} (h : WovenChain plan marks first final i p arms fs t n') :
    ∃ fs', n' = .mk i .ifStmt p fs' ∧ List.Forall₂ Swollen fs fs' := by
  cases h with
  | last _ ht hb arm₀ ho arm₁ =>
    exact ⟨_, rfl, .cons .child (.cons (.many fun h ↦ arm₀.ne_nil (hb.ne_nil h))
      (.cons (.many fun h ↦ arm₁.ne_nil (ho.ne_nil h)) .nil))⟩
  | link _ _ ht hb arm next =>
    exact ⟨_, rfl, .cons .child (.cons (.many fun h ↦ arm.ne_nil (hb.ne_nil h)) (.cons (.many fun _ ↦ by simp) .nil))⟩
  | other => exact ⟨fs, rfl, swollen_same fs⟩

/-- A node keeps its class and the kinds of its fields. -/
theorem Woven.swollen {i : NodeId} {c : NodeClass} (h : Woven plan marks first final (.mk i c p fs) t n') :
    ∃ fs', n' = .mk i c p fs' ∧ List.Forall₂ Swollen fs fs' := by
  cases h with
  | marked => exact ⟨fs, rfl, swollen_same fs⟩
  | module _ hb => exact ⟨_, rfl, .cons (.many hb.ne_nil) (swollen_same _)⟩
  | classDef _ hds hbs hks hb =>
    exact ⟨_, rfl, .cons .same (.cons (.many hbs.ne_nil) (.cons (.many hks.ne_nil) (.cons (.many hb.ne_nil)
      (.cons (.many hds.ne_nil) .nil))))⟩
  | functionDef _ hds ha hb entry =>
    exact ⟨_, rfl, .cons .same (.cons .child (.cons (.many fun h ↦ entry.ne_nil (hb.ne_nil h))
      (.cons (.many hds.ne_nil) (swollen_same _))))⟩
  | lambda => exact ⟨_, rfl, .cons .child (.cons .child .nil)⟩
  | ifStmt _ chain => exact chain.swollen
  | ifExp => exact ⟨_, rfl, .cons .child (.cons .child (.cons .child .nil))⟩
  | boolOp _ hvs => exact ⟨_, rfl, .cons .same (.cons (.many hvs.ne_nil) .nil)⟩
  | matchStmt _ hs hcs rest =>
    exact ⟨_, rfl, .cons .child (.cons (.many fun h ↦ rest.ne_nil (hcs.ne_nil h)) .nil)⟩
  | whileLoop _ ht hb arm₀ ho arm₁ =>
    exact ⟨_, rfl, .cons .child (.cons (.many fun h ↦ arm₀.ne_nil (hb.ne_nil h))
      (.cons (.many fun h ↦ arm₁.ne_nil (ho.ne_nil h)) .nil))⟩
  | forLoop _ ht hs hb arm₀ ho arm₁ =>
    exact ⟨_, rfl, .cons .child (.cons .child (.cons (.many fun h ↦ arm₀.ne_nil (hb.ne_nil h))
      (.cons (.many fun h ↦ arm₁.ne_nil (ho.ne_nil h)) (swollen_same _))))⟩
  | tryStmt _ hb hh ho hf arms =>
    exact ⟨_, rfl, .cons (.many fun h ↦ arms.ne_nil (hb.ne_nil h)) (.cons (.many hh.ne_nil)
      (.cons (.many ho.ne_nil) (.cons (.many hf.ne_nil) .nil)))⟩
  | plain _ _ hfs => exact ⟨_, rfl, hfs.swollen⟩

theorem Rewoven.swollen {i : NodeId} {c : NodeClass} (h : Rewoven plan marks first final E (.mk i c p fs) n') :
    ∃ fs', n' = .mk i c p fs' ∧ List.Forall₂ Swollen fs fs' := by
  cases h with
  | same => exact ⟨fs, rfl, swollen_same fs⟩
  | woven _ h => exact h.swollen
  | case _ hg hb arm =>
    exact ⟨_, rfl, .cons .same (.cons hg.swollen (.cons (.many fun h ↦ arm.ne_nil (hb.ne_nil h)) .nil))⟩
  | handler _ ht hb => exact ⟨_, rfl, .cons ht.swollen (.cons .same (.cons (.many hb.ne_nil) .nil))⟩

theorem Rewoven.eq_gap (h : Rewoven plan marks first final E .gap n') : n' = .gap := by
  cases h with
  | same => rfl
  | woven _ h =>
    cases h
    rfl

/-- Lists that must not be empty are not. -/
theorem Rewoven.listFilled {field : String} (h : Rewoven plan marks first final E n n')
    (hn : n.listFilled field = true) : n'.listFilled field = true := by
  cases n with
  | gap =>
    rw [h.eq_gap]
    rfl
  | mk i c p fs =>
    obtain ⟨fs', rfl, hfs⟩ := h.swollen
    exact listFilled_of_swollen hfs hn

theorem Rewoven.hasClause (h : Rewoven plan marks first final E n n') (hn : n.hasClause = true) :
    n'.hasClause = true := by
  cases n with
  | gap =>
    rw [h.eq_gap]
    rfl
  | mk i c p fs =>
    obtain ⟨fs', rfl, hfs⟩ := h.swollen
    exact hasClause_of_swollen hfs hn

/-- Comparisons have as many operators as operands. -/
theorem Rewoven.operandsPaired (h : Rewoven plan marks first final E n n') (hn : n.operandsPaired = true) :
    n'.operandsPaired = true := by
  cases h with
  | same => exact hn
  | case => rfl
  | handler => exact operandsPaired_of_not_hasRule (.inr rfl)
  | woven _ h =>
    cases h with
    | ifStmt _ chain => cases chain <;> rfl
    | marked => exact hn
    | boolOp _ hvs =>
      simp only [Node.operandsPaired, decide_eq_true_eq] at hn ⊢
      rw [hvs.length_eq]
      exact hn
    | plain _ noRule hfs => exact operandsPaired_of_not_hasRule (.inl (hasRule_of_swollen hfs.swollen noRule))
    | _ => rfl

/-! ## Cases that catch everything -/

/-- A field without nodes stays as it is, and no other becomes one. -/
theorem WovenField.eq_none_iff (h : WovenField plan marks first final f t f') : f' = .none ↔ f = .none := by
  cases h <;> simp

/-- A case keeps its pattern, and it has a guard if it had one. -/
theorem WovenCases.map_isDefaultCase (h : WovenCases plan marks first final keys cs t cs') :
    cs'.map Node.isDefaultCase = cs.map Node.isDefaultCase := by
  induction cs generalizing keys t cs' with
  | nil =>
    cases h
    rfl
  | cons c cs ih =>
    cases h with
    | cons _ hg hb arm hrest =>
      rw [List.map_cons, List.map_cons, ih hrest]
      congr 1
      rw [Bool.eq_iff_iff, isDefaultCase_case, isDefaultCase_case, hg.eq_none_iff]

/-- A default case is added only if there is none, so it comes last. -/
theorem Completed.defaultLast (h : Completed plan first final key place cs cs')
    (hcs : (cs.dropLast.all fun c ↦ !c.isDefaultCase) = true)
    (covered : (cs.getLast?.map (·.isDefaultCase)).getD false = true → key = none) :
    (cs'.dropLast.all fun c ↦ !c.isDefaultCase) = true := by
  cases h with
  | bare => exact hcs
  | fallback =>
    rw [List.dropLast_concat]
    obtain rfl | ⟨before, last, hcs'⟩ := List.eq_nil_or_concat cs
    · rfl
    · rw [List.concat_eq_append] at hcs'
      subst hcs'
      rw [List.dropLast_concat] at hcs
      have hlast : last.isDefaultCase = false := by
        rw [← Bool.not_eq_true]
        intro hdefault
        simp [hdefault] at covered
      simp [hcs, hlast]

theorem Rewoven.defaultLast (h : Rewoven plan marks first final E n n') (hn : n.defaultLast = true) :
    n'.defaultLast = true := by
  cases h with
  | same => exact hn
  | case => rfl
  | handler => exact defaultLast_of_not_hasRule (.inr rfl)
  | woven _ h =>
    cases h with
    | ifStmt _ chain => cases chain <;> rfl
    | marked => exact hn
    | matchStmt _ hs hcs rest covered =>
      simp only [Node.defaultLast] at hn ⊢
      rw [all_dropLast_map, ← hcs.map_isDefaultCase, ← all_dropLast_map] at hn
      refine rest.defaultLast hn fun hlast ↦ covered ?_
      rw [← List.getLast?_map] at hlast ⊢
      rwa [← hcs.map_isDefaultCase]
    | plain _ noRule hfs => exact defaultLast_of_not_hasRule (.inl (hasRule_of_swollen hfs.swollen noRule))
    | _ => rfl

/-! ## Docstrings and imports -/

theorem Woven.stringConstant? (h : Woven plan marks first final n t n') : n'.stringConstant? = n.stringConstant? := by
  cases n with
  | gap =>
    cases h
    rfl
  | mk i c p fs =>
    obtain ⟨fs', rfl, hfs⟩ := h.swollen
    exact stringConstant?_of_swollen hfs

theorem WovenField.stringConstant? (h : WovenField plan marks first final f t f') :
    f'.stringConstant? = f.stringConstant? := by
  cases h with
  | child hn => exact hn.stringConstant?
  | _ => rfl

theorem Woven.docstring? (h : Woven plan marks first final n t n') : n'.docstring? = n.docstring? := by
  cases h with
  | ifStmt _ chain => cases chain <;> rfl
  | plain _ _ hfs =>
    generalize NodeClass.fieldNames _ = names at hfs
    cases hfs with
    | done => rfl
    | beyond => rfl
    | skipped => rw [Node.docstring?, Node.docstring?]
    | walked _ hf => rw [Node.docstring?, Node.docstring?, hf.stringConstant?]
  | _ => rfl

theorem Woven.isDocstring (h : Woven plan marks first final n t n') : n'.isDocstring = n.isDocstring := by
  rw [← docstring?_isSome, ← docstring?_isSome, h.docstring?]

theorem Rewoven.futureImport? (h : Rewoven plan marks first final E n n') : n'.futureImport? = n.futureImport? := by
  cases n with
  | gap => rw [h.eq_gap]
  | mk i c p fs =>
    obtain ⟨fs', rfl, hfs⟩ := h.swollen
    rw [Node.futureImport?, Node.futureImport?, isFutureImport_of_swollen hfs]

theorem Woven.isFutureImport (h : Woven plan marks first final n t n') : n'.isFutureImport = n.isFutureImport := by
  have hrewoven : Rewoven plan marks first final (fun _ ↦ True) n n' := .woven trivial h
  rw [isFutureImport_eq, isFutureImport_eq, hrewoven.futureImport?]

/-- A statement that a walk goes into is neither a docstring nor an import from `__future__`. -/
theorem of_passesOver_eq_false {s : Node} (h : passesOver plan marks doc s = false) :
    (doc && s.isDocstring) = false ∧ s.isFutureImport = false := by
  simp only [passesOver, Bool.or_eq_false_iff] at h
  exact ⟨h.1.2, h.2⟩

/-- Docstring and imports from `__future__` stay in front. -/
theorem WovenBlock.opening (h : WovenBlock plan marks first final doc body t b) : opening doc b = opening doc body := by
  induction body generalizing doc t b with
  | nil =>
    cases h
    rfl
  | cons s rest ih =>
    cases h with
    | skip _ _ hrest => rw [Syntax.opening, Syntax.opening, ih hrest]
    | gap hrest => cases doc <;> rfl
    | stmt walked _ hs hrest counted =>
      obtain ⟨hdoc, hfuture⟩ := of_passesOver_eq_false walked
      rw [Syntax.opening, hfuture, hdoc]
      cases counted with
      | bare => simp [Syntax.opening, hs.isFutureImport, hs.isDocstring, hfuture, hdoc]
      | front => cases doc <;> rfl

theorem WovenBlock.leadingText? (h : WovenBlock plan marks first final true body t b) :
    leadingText? b = leadingText? body := by
  cases h with
  | nil => rfl
  | skip => rfl
  | gap => rfl
  | stmt walked _ hs hrest counted =>
    cases counted with
    | bare => exact hs.docstring?
    | front =>
      obtain ⟨hdoc, -⟩ := of_passesOver_eq_false walked
      rw [Bool.true_and, ← docstring?_isSome, Option.isSome_eq_false_iff, Option.isNone_iff_eq_none] at hdoc
      exact hdoc.symm

theorem Entered.leadingText? (h : Entered plan first final key (startsWithDocstring body) b b')
    (hb : leadingText? b = leadingText? body) : leadingText? b' = leadingText? body := by
  generalize hdoc : startsWithDocstring body = doc at h
  cases h with
  | bare => exact hb
  | front =>
    cases body with
    | nil => rfl
    | cons s body =>
      change s.isDocstring = false at hdoc
      rw [← docstring?_isSome, Option.isSome_eq_false_iff, Option.isNone_iff_eq_none] at hdoc
      exact hdoc.symm
  | behind => exact hb
  | last => exact hb

/-- Docstrings stay. -/
theorem Rewoven.documentation? (h : Rewoven plan marks first final E n n') : n'.documentation? = n.documentation? := by
  have hnone : ∀ {i c p fs fs'}, List.Forall₂ Swollen fs fs' → (hasRule c fs = false ∨ fs.length = 3) →
      (Node.mk i c p fs').documentation? = (Node.mk i c p fs).documentation? := by
    intro i c p fs fs' hfs h
    have h' : hasRule c fs' = false ∨ fs'.length = 3 :=
      h.imp (hasRule_of_swollen hfs) fun hlength ↦ hfs.length_eq ▸ hlength
    rw [Node.documentation?, Node.documentation?, documentedBody?_of_not_hasRule h, documentedBody?_of_not_hasRule h']
  cases h with
  | same => rfl
  | case => rfl
  | handler _ ht hb => exact hnone (.cons ht.swollen (.cons .same (.cons (.many hb.ne_nil) .nil))) (.inr rfl)
  | woven _ h =>
    cases h with
    | ifStmt _ chain => cases chain <;> rfl
    | module _ hb => simp [Node.documentation?, Node.documentedBody?, hb.leadingText?]
    | classDef _ hds hbs hks hb => simp [Node.documentation?, Node.documentedBody?, hb.leadingText?]
    | functionDef _ hds ha hb entry =>
      simp [Node.documentation?, Node.documentedBody?, entry.leadingText? hb.leadingText?]
    | plain _ noRule hfs => exact hnone hfs.swollen (.inl noRule)
    | _ => rfl

/-- The statements of a block are rewoven one by one, with probes between them. -/
theorem WovenBlock.statements (h : WovenBlock plan marks first final doc body t b) :
    Spread plan marks first final (fun _ ↦ True) (Injected plan) body b := by
  induction body generalizing doc t b with
  | nil =>
    cases h
    exact .nil
  | cons s rest ih =>
    cases h with
    | skip _ kept hrest => exact .keep (.same kept) (ih hrest)
    | gap hrest => exact .keep (.woven trivial .gap) (ih hrest)
    | stmt walked _ hs hrest counted =>
      have hkept := Interleaved.keep (Rewoven.woven trivial hs) (ih hrest)
      cases counted with
      | bare => exact hkept
      | front => exact .insert .counter hkept

theorem Woven.moduleBody (h : Woven plan marks first final n t n') :
    n'.moduleBody = n.moduleBody ∨ ∃ t, WovenBlock plan marks first final true n.moduleBody t n'.moduleBody := by
  cases h with
  | ifStmt _ chain => cases chain <;> exact .inl rfl
  | module _ hb => exact .inr ⟨_, hb⟩
  | @plain i c p fs t fs' _ noRule hfs =>
    left
    cases c with
    | module =>
      rw [Node.moduleBody, Node.moduleBody, documentedBody?_of_not_hasRule (.inl noRule),
        documentedBody?_of_not_hasRule (.inl (hasRule_of_swollen hfs.swollen noRule))]
    | _ => rfl
  | _ => exact .inl rfl

/-! ## Nodes of probes -/

theorem Injected.futureImport? (h : Injected plan n) : n.futureImport? = none := by
  cases h <;> rfl

theorem Injected.documentation? (h : Injected plan n) : n.documentation? = none := by
  cases h <;> rfl

theorem Injected.listFilled {field : String} (h : Injected plan n) : n.listFilled field = true := by
  cases h <;> simp [Node.listFilled, Probe.load, Probe.stringConstant, Probe.call, Probe.counter, Probe.wrapper,
    Probe.guard, Probe.fallback, NodeClass.fieldNames, NodeClass.table, Plain.table, NodeClass.mandatory, Field.isEmpty]

theorem Injected.operandsPaired (h : Injected plan n) : n.operandsPaired = true := by
  cases h <;> rfl

theorem Injected.defaultLast (h : Injected plan n) : n.defaultLast = true := by
  cases h <;> rfl

theorem Injected.hasClause (h : Injected plan n) : n.hasClause = true := by
  cases h <;> rfl

/-! ## Whole passes -/

section Passes

variable {next : NodeId} {tree : Node} {i : Instrumented} (htree : Identified next tree)
  (h : instrument plan marks next tree = .ok i)

include htree h

/-- A property of nodes that reweaving keeps, that probes have and that does not depend on places is kept. -/
theorem forall_nodes_instrument {P : Node → Prop}
    (hkept : ∀ {n n'}, Rewoven plan marks next i.marks (fun _ ↦ True) n n' → P n → P n')
    (hnew : ∀ {n}, Injected plan n → P n) (hfill : ∀ o {n}, P n → P (Node.fillPlaces o n))
    (hall : ∀ n ∈ tree.nodes, P n) : ∀ n ∈ i.tree.nodes, P n := by
  refine (interleaved_instrument htree h (setting_injected _) fun _ _ ↦ trivial).forall_mem ?_ ?_ hall
  · rintro n _ ⟨w, hw, o, rfl⟩ hn
    exact hfill o (hkept hw hn)
  · rintro _ ⟨w, hw, o, rfl⟩
    exact hfill o (hnew hw)

/-- What is read off the nodes one by one stays the same if reweaving keeps it and probes add nothing. -/
theorem filterMap_nodes_instrument {β : Type} {f : Node → Option β}
    (hkept : ∀ {n n'}, Rewoven plan marks next i.marks (fun _ ↦ True) n n' → f n' = f n)
    (hnew : ∀ {n}, Injected plan n → f n = none) (hfill : ∀ o n, f (Node.fillPlaces o n) = f n) :
    i.tree.nodes.filterMap f = tree.nodes.filterMap f := by
  refine (interleaved_instrument htree h (setting_injected _) fun _ _ ↦ trivial).filterMap_eq ?_ ?_
  · rintro n _ ⟨w, hw, o, rfl⟩
    rw [hfill, hkept hw]
  · rintro _ ⟨w, hw, o, rfl⟩
    rw [hfill, hnew hw]

/-- Imports from `__future__` stay, and stay in front. -/
theorem futureImports_moduleBody_instrument :
    futureImports i.tree.moduleBody = futureImports tree.moduleBody ∧
      futureImports (opening true i.tree.moduleBody) = futureImports (opening true tree.moduleBody) := by
  obtain ⟨n, hwoven, hfilled, -⟩ := instrument_spec htree h
  obtain ⟨inner, hbody⟩ := moduleBody_fillPlaces .start n
  rw [hfilled, hbody, opening_fillNodes, futureImports_fillNodes, futureImports_fillNodes]
  rcases hwoven.moduleBody with hsame | ⟨t, hblock⟩
  · rw [hsame]
    exact ⟨rfl, rfl⟩
  · rw [hblock.opening]
    exact ⟨hblock.statements.filterMap_eq Rewoven.futureImport? Injected.futureImport?, rfl⟩

/-- A pass keeps to each rule. -/
theorem obeys_instrument (rule : Rule) (hrule : tree.Obeys rule) : i.tree.Obeys rule := by
  obtain ⟨hbody, hopening⟩ := futureImports_moduleBody_instrument htree h
  cases rule with
  | lists field =>
    exact forall_nodes_instrument htree h Rewoven.listFilled Injected.listFilled (fun o ↦ listFilled_fillPlaces o)
      hrule
  | operands =>
    exact forall_nodes_instrument htree h Rewoven.operandsPaired Injected.operandsPaired operandsPaired_fillPlaces hrule
  | defaults =>
    exact forall_nodes_instrument htree h Rewoven.defaultLast Injected.defaultLast defaultLast_fillPlaces hrule
  | clauses =>
    exact forall_nodes_instrument htree h Rewoven.hasClause Injected.hasClause hasClause_fillPlaces hrule
  | imports =>
    change futureImports i.tree.moduleBody = futureImports (opening true i.tree.moduleBody)
    rw [hbody, hopening]
    exact hrule
  | topImports =>
    have hnodes : futureImports i.tree.nodes = futureImports tree.nodes :=
      filterMap_nodes_instrument htree h Rewoven.futureImport? Injected.futureImport? futureImport?_fillPlaces
    change futureImports i.tree.nodes = futureImports (opening true i.tree.moduleBody)
    rw [hnodes, hopening]
    exact hrule

theorem placed_instrument : i.tree.placed = true := by
  obtain ⟨n, -, hfilled, -⟩ := instrument_spec htree h
  rw [hfilled]
  exact placed_fillPlaces rfl n

end Passes

/-- A pass keeps every rule for source text that the tree obeys. Modules, classes and functions have the docstrings that
they had, those without one still have none, and no place is missing. -/
theorem valid_instrument {next : NodeId} {tree : Node} {i : Instrumented} (htree : Identified next tree)
    (h : instrument plan marks next tree = .ok i) :
    (∀ rule, tree.Obeys rule → i.tree.Obeys rule) ∧ i.tree.documentation = tree.documentation ∧
      i.tree.placed = true :=
  ⟨obeys_instrument htree h,
    filterMap_nodes_instrument htree h Rewoven.documentation? Injected.documentation? documentation?_fillPlaces,
    placed_instrument htree h⟩

/-- A module with a docstring and an import from `__future__`. It has a class without a docstring and a function with
one, in which a `match` ends with a case that catches everything and a `try` has a `finally`. -/
def documentedModule : Node :=
  .mk 0 .module {} [.many
    [.mk 1 (.plain .exprStmt) (placeAt 1 0)
        [.child (.mk 2 (.plain .constant) (placeAt 1 0) [.constant (.str "a module"), .none])],
      .mk 3 (.plain .importFrom) (placeAt 2 0)
        [.text "__future__", .many [.mk 4 (.plain .aliasName) (placeAt 2 23) [.text "annotations", .none]], .number 0],
      .mk 5 .classDef (placeAt 3 0)
        [.text "C", .many [], .many [],
          .many [.mk 6 (.functionDef false) (placeAt 4 4)
            [.text "f",
              .child (.mk 7 (.plain .arguments) {} [.many [], .many [], .none, .many [], .many [], .none, .many []]),
              .many [.mk 8 (.plain .exprStmt) (placeAt 5 8)
                  [.child (.mk 9 (.plain .constant) (placeAt 5 8) [.constant (.str "a function"), .none])],
                .mk 10 .matchStmt (placeAt 6 8)
                  [.child (.mk 11 (.plain .constant) (placeAt 6 14) [.constant (.int 1), .none]),
                    .many [.mk 12 .matchCase {}
                      [.child (.mk 13 (.plain .matchAs) (placeAt 7 17) [.none, .none]), .none,
                        .many [.mk 14 (.tryStmt false) (placeAt 8 16)
                          [.many [.mk 15 (.plain .pass) (placeAt 8 21) []], .many [], .many [],
                            .many [.mk 16 (.plain .pass) (placeAt 9 25) []]]]]]]],
              .many [], .none, .none]],
          .many []]],
    .many []]

/-- The rules about blocks, cases, `match`, `try` and imports. -/
def documentedRules : List Rule :=
  [.lists "body", .lists "cases", .lists "values", .operands, .imports, .topImports, .defaults, .clauses]

theorem obeys_documentedModule : ∀ rule ∈ documentedRules, documentedModule.Obeys rule := by
  simp only [documentedRules, List.forall_mem_cons, Node.Obeys, List.not_mem_nil, false_imp_iff, implies_true, and_true]
  decide +kernel

/-- A module with a docstring. -/
theorem valid_instrument_documentedModule :
    ∃ i, instrument { filename := "m.py" } {} 17 documentedModule = .ok i ∧
      (∀ rule ∈ documentedRules, i.tree.Obeys rule) ∧
      i.tree.documentation = [(0, some "a module"), (5, none), (6, some "a function")] ∧ i.tree.placed = true := by
  obtain ⟨i, h⟩ : ∃ i, instrument { filename := "m.py" } {} 17 documentedModule = .ok i :=
    exists_ok_of_toBool (by decide +kernel)
  obtain ⟨hrules, hdocumentation, hplaced⟩ := valid_instrument ⟨by decide, by decide⟩ h
  exact ⟨i, h, fun rule hrule ↦ hrules rule (obeys_documentedModule rule hrule),
    hdocumentation.trans (by decide +kernel), hplaced⟩

end Coverage.Pass
