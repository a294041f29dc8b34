import Coverage.Proofs.Repeat.Blocks

/-!
# What a walk leaves behind

A walk marks what it has dealt with, so that what it leaves behind is settled: every block below the node
holds only statements that are marked or that every pass passes over. Whether a node itself rests after the
walk depends on who marks it. Most nodes are marked by their own rule or need no mark; definitions of
functions, loops, `match` and `try` statements are marked by the block they stand in.

This holds of all woven trees of the grammar, by induction on how they are woven.
-/

namespace Coverage.Syntax

/-- Classes whose nodes are marked by the block they stand in and not by their own rule. -/
def NodeClass.markedByBlock : NodeClass → Bool
  | .functionDef _ | .matchStmt | .whileLoop | .forLoop _ | .tryStmt _ => true
  | _ => false

def Node.markedByBlock (n : Node) : Bool := n.cls?.any NodeClass.markedByBlock

theorem not_markedByBlock_of_isA {full : Bool} {cat : Category} {n : Node} (h : n.isA full cat = true)
    (hcat : cat ≠ .statement) : n.markedByBlock = false := by
  cases n with
  | gap => rfl
  | mk i c p fs =>
    obtain ⟨rfl, -⟩ := isA_mk.1 h
    cases c with
    | functionDef | matchStmt | whileLoop | forLoop | tryStmt => exact absurd rfl hcat
    | _ => rfl

end Coverage.Syntax

namespace Coverage.Pass

open Syntax

variable {plan : Plan} {marks : Marks} {first : NodeId} {final : Marks} {full : Bool}

/-! ## Probes -/

/-- A marked statement that holds settled blocks only. -/
structure Finished (plan : Plan) (marks : Marks) (first : NodeId) (final : Marks) (n : Node) : Prop where
  held : final.holds n = true
  closed : Closed plan marks first final n
  statement : n.isStatement = true

theorem Finished.cons {n : Node} {ns : List Node} (docstring : Bool) (hn : Finished plan marks first final n)
    (hns : ClosedBlock plan marks first final false ns) :
    ClosedBlock plan marks first final docstring (n :: ns) :=
  closedBlock_cons (passesOver_of_holds docstring hn.held) hn.closed hns

theorem finished_counter {j : NodeId} (fresh : Fresh first final Probe.counterSize j) (key : Key) (place : Place) :
    Finished plan marks first final (Probe.counter plan key place j) :=
  ⟨fresh.held 0 (by decide), closed_counter key place j, rfl⟩

theorem Wrapped.left {key : Option Key} {e e' : Node} (h : Wrapped plan first final key e e')
    (he : Closed plan marks first final e) :
    Closed plan marks first final e' ∧ (e.isStatement = false → e'.isStatement = false) := by
  cases h with
  | bare => exact ⟨he, fun h ↦ h⟩
  | wrapped => exact ⟨closed_wrapper _ _ he, fun _ ↦ rfl⟩

theorem Counted.left {key : Option Key} {place : Place} {b b' : List Node}
    (h : Counted plan first final key place b b') (hb : ClosedBlock plan marks first final false b) :
    ClosedBlock plan marks first final false b' := by
  cases h with
  | bare => exact hb
  | front fresh => exact (finished_counter fresh _ _).cons false hb

/-- The counter of a function goes behind the docstring, so what follows the docstring is still settled. -/
theorem Entered.left {key : Option Key} {doc : Bool} {b b' : List Node} (h : Entered plan first final key doc b b')
    (hb : ClosedBlock plan marks first final doc b) : ClosedBlock plan marks first final true b' := by
  have hbehind : ∀ {c d : Node} {rest : List Node}, Finished plan marks first final c →
      ClosedBlock plan marks first final true (d :: rest) →
      ClosedBlock plan marks first final true (d :: c :: rest) := by
    intro c d rest hc hb
    obtain ⟨hsettled, hinner⟩ := hb
    rw [settled_cons] at hsettled
    rw [closedAll_cons] at hinner
    exact closedBlock_cons hsettled.1 hinner.1 (hc.cons false ⟨hsettled.2, hinner.2⟩)
  cases h with
  | bare =>
    cases doc with
    | true => exact hb
    | false => exact hb.of_false true
  | front fresh => exact (finished_counter fresh _ _).cons true hb
  | behind fresh => exact hbehind (finished_counter fresh _ _) hb
  | last fresh => exact hbehind (finished_counter fresh _ _) hb

/-- A guard closes the block that it takes the place of. -/
theorem Guarded.left {k₀ k₁ : Option Key} {b b' : List Node} (h : Guarded plan first final k₀ k₁ b b')
    (hb : ClosedBlock plan marks first final false b) : ClosedBlock plan marks first final false b' := by
  cases h with
  | bare => exact hb
  | @guarded ok error s b j fresh =>
    have hguard : Finished plan marks first final (Probe.guard plan ok error s.place (s :: b) j) :=
      ⟨fresh.held 0 (by decide), closed_guard ok error s.place j hb, rfl⟩
    exact hguard.cons false closedBlock_nil

theorem Completed.left {key : Option Key} {place : Place} {cs cs' : List Node}
    (h : Completed plan first final key place cs cs') (starts : startsBlock cs = false)
    (hcs : ClosedAll plan marks first final cs) : startsBlock cs' = false ∧ ClosedAll plan marks first final cs' := by
  cases h with
  | bare => exact ⟨starts, hcs⟩
  | fallback fresh =>
    constructor
    · cases cs with
      | nil => rfl
      | cons c cs => exact starts
    · exact closedAll_append.2
        ⟨hcs, closedAll_cons.2 ⟨closed_fallback _ place (fresh.held 2 (by decide)), closedAll_nil⟩⟩

/-! ## What is passed over -/

/-- A statement that is passed over now is passed over later. -/
theorem passesOver_of_agrees {doc : Bool} {s : Node} (hover : passesOver plan marks doc s = true)
    (kept : marks.AgreesOn s.ids final) : passesOver plan final (doc && s.isDocstring) s = true := by
  rw [passesOver, ← kept.holds] at hover
  rw [passesOver, Bool.and_assoc, Bool.and_self]
  exact hover

/-- What is passed over holds no blocks that a pass goes through: docstrings and imports from `__future__` hold
none at all. -/
theorem closed_of_passesOver {doc : Bool} {s : Node} (h : s.isA full .statement = true) (old : Before first s.ids)
    (hover : passesOver plan marks doc s = true) : Closed plan marks first final s := by
  simp only [passesOver, Bool.or_eq_true, Bool.and_eq_true] at hover
  rcases hover with ((held | excluded) | ⟨-, hdoc⟩) | hfuture
  · exact closed_of_leftAlone (leftAlone_of_holds held)
  · exact closed_of_leftAlone (leftAlone_of_excludes (isStatement_of_isA h) excluded old)
  · unfold Node.isDocstring at hdoc
    split at hdoc
    next =>
      rw [Closed, blocks, fieldsBlocks_eq_nil _ _ (isA_mk.1 h).2 (by decide), ite_self]
      exact .nil
    next => cases hdoc
  · unfold Node.isFutureImport at hfuture
    split at hfuture
    next =>
      rw [Closed, blocks, fieldsBlocks_eq_nil _ _ (isA_mk.1 h).2 (by decide), ite_self]
      exact .nil
    next => cases hfuture

/-- Fields that are not walked into hold no blocks. -/
def blocksWalked : List String → List Content → Bool
  | [], [] => true
  | name :: names, content :: contents =>
    (!isSkippedField name || !content.holdsBlocks) && blocksWalked names contents
  | _, _ => false

theorem blocksWalked_contents (c : NodeClass) : blocksWalked c.fieldNames c.contents = true := by
  cases c with
  | plain c => cases c <;> decide +kernel
  | functionDef b | forLoop b | tryStmt b => cases b <;> decide +kernel
  | _ => decide +kernel

/-- Whether there is a rule for a node of the grammar depends on its class alone. -/
theorem not_hasRule_of_fits {c : NodeClass} {fs : List Field} (h : fieldsFit full c.contents fs = true)
    (noRule : hasRule c fs = false) (fs' : List Field) : hasRule c fs' = false := by
  cases shape_of_fits h with
  | matchCase | handler | plain => rfl
  | _ => cases noRule

/-! ## Woven trees -/

/-- What is left of a node: its identity and class, and settled blocks below it. It rests, unless its mark
comes from the block around it. -/
structure Left (plan : Plan) (marks : Marks) (first : NodeId) (final : Marks) (n n' : Node) : Prop where
  cls? : n'.cls? = n.cls?
  holds : ∀ m : Marks, m.holds n' = m.holds n
  closed : Closed plan marks first final n'
  rests : n.markedByBlock = false → Rests plan final n'

theorem Left.isStatement {n n' : Node} (h : Left plan marks first final n n') : n'.isStatement = n.isStatement := by
  unfold Node.isStatement
  rw [h.cls?]

theorem left_mk {i : NodeId} {c : NodeClass} {p : Place} {fs fs' : List Field}
    (hfs : ClosedFields plan marks first final fs')
    (hrests : c.markedByBlock = false → Rests plan final (.mk i c p fs')) :
    Left plan marks first final (.mk i c p fs) (.mk i c p fs') :=
  ⟨rfl, fun _ ↦ rfl, closed_mk _ _ _ hfs, hrests⟩

mutual
/-- A woven tree of the grammar has settled blocks only. -/
theorem Woven.left {n n' : Node} {t : List Tag} {cat : Category} : Woven plan marks first final n t n' →
    n.isA full cat = true → Before first n.ids → Left plan marks first final n n'
  | .gap, h, _ => by simp [Node.isA] at h
  | .marked held kept, _, _ => by
    refine ⟨rfl, fun _ ↦ rfl, closed_of_leftAlone (leftAlone_of_holds held), fun _ ↦ .marked ?_⟩
    rw [kept _ (by simp [Node.ids]), held]
  | .module dealt hb _, h, old => by
    simp only [Node.ids, fieldsIds_cons, Field.ids_many, before_cons, before_append] at old
    obtain ⟨-, obody, -⟩ := old
    cases shape_of_fits (isA_mk.1 h).2 with
    | module hbody hignores =>
      refine left_mk ?_ fun _ ↦ .marked dealt.held
      simp only [closedFields_cons]
      exact ⟨(hb.left hbody obody).1.field, closedField_of_are rfl hignores, closedFields_nil⟩
  | .classDef _ hds hbs hks hb _, h, old => by
    simp only [Node.ids, fieldsIds_cons, Field.ids_many, before_cons, before_append] at old
    obtain ⟨-, -, obases, okeywords, obody, odecorators, -⟩ := old
    cases shape_of_fits (isA_mk.1 h).2 with
    | classDef hname hbases hkeywords hsome hbody hdecorators =>
      have hds := hds.left hdecorators (by decide) odecorators
      have hbs := hbs.left hbases (by decide) obases
      have hks := hks.left hkeywords (by decide) okeywords
      have hb := (hb.left hbody obody).1
      refine left_mk ?_ fun _ ↦ .classDef hds.2.2 hbs.2.2 hks.2.2 (hb.of_and true).settled
      simp only [closedFields_cons]
      exact ⟨closedField_of_fits hname rfl, closedField_many hbs.1 hbs.2.1, closedField_many hks.1 hks.2.1, hb.field,
        closedField_many hds.1 hds.2.1, closedFields_nil⟩
  | .functionDef _ hds ha hb entry _, h, old => by
    simp only [Node.ids, fieldsIds_cons, Field.ids_child, Field.ids_many, before_cons, before_append] at old
    obtain ⟨-, -, oargs, obody, odecorators, -⟩ := old
    cases shape_of_fits (isA_mk.1 h).2 with
    | functionDef hargs hsome hbody hdecorators hreturns hcomment =>
      have hds := hds.left hdecorators (by decide) odecorators
      refine left_mk ?_ nofun
      simp only [closedFields_cons, closedField_child]
      exact ⟨closedField_atom rfl, (ha.left hargs oargs).closed, (entry.left (hb.left hbody obody).1).field,
        closedField_many hds.1 hds.2.1, closedField_of_fits hreturns rfl, closedField_of_fits hcomment rfl,
        closedFields_nil⟩
  | .lambda dealt ha hb entry, h, old => by
    simp only [Node.ids, fieldsIds_cons, Field.ids_child, before_cons, before_append] at old
    obtain ⟨-, oargs, obody, -⟩ := old
    cases shape_of_fits (isA_mk.1 h).2 with
    | lambda hargs hbody =>
      refine left_mk ?_ fun _ ↦ .marked dealt.held
      simp only [closedFields_cons, closedField_child]
      exact ⟨(ha.left hargs oargs).closed, (entry.left (hb.left hbody obody).closed).1, closedFields_nil⟩
  | .ifStmt _ chain, h, old => by
    simp only [Node.ids, before_cons] at old
    obtain ⟨fs', rfl, held, hfs⟩ := chain.left (isA_mk.1 h).2 old.2
    exact left_mk hfs fun _ ↦ .marked held
  | .ifExp dealt ht hb ho arm₀ arm₁, h, old => by
    simp only [Node.ids, fieldsIds_cons, Field.ids_child, before_cons, before_append] at old
    obtain ⟨-, otest, obody, oorelse, -⟩ := old
    cases shape_of_fits (isA_mk.1 h).2 with
    | ifExp htest hbody horelse =>
      refine left_mk ?_ fun _ ↦ .marked dealt.held
      simp only [closedFields_cons, closedField_child]
      exact ⟨(ht.left htest otest).closed, (arm₀.left (hb.left hbody obody).closed).1,
        (arm₁.left (ho.left horelse oorelse).closed).1, closedFields_nil⟩
  | .boolOp dealt hvs _, h, old => by
    simp only [Node.ids, fieldsIds_cons, Field.ids_many, before_cons, before_append] at old
    obtain ⟨-, -, ovalues, -⟩ := old
    cases shape_of_fits (isA_mk.1 h).2 with
    | boolOp hop hsome hvalues =>
      have hvs := hvs.left hvalues ovalues
      refine left_mk ?_ fun _ ↦ .marked dealt.held
      simp only [closedFields_cons, closedField_child]
      exact ⟨closed_of_isA rfl hop, closedField_many hvs.1 hvs.2, closedFields_nil⟩
  | .matchStmt _ hs hcs rest _, h, old => by
    simp only [Node.ids, fieldsIds_cons, Field.ids_child, Field.ids_many, before_cons, before_append] at old
    obtain ⟨-, osubject, ocases, -⟩ := old
    cases shape_of_fits (isA_mk.1 h).2 with
    | matchStmt hsubject hsome hcases =>
      have hcs := hcs.left hcases ocases
      have hrest := rest.left hcs.1 hcs.2
      refine left_mk ?_ nofun
      simp only [closedFields_cons, closedField_child]
      exact ⟨(hs.left hsubject osubject).closed, closedField_many hrest.1 hrest.2, closedFields_nil⟩
  | .whileLoop _ ht hb arm₀ ho arm₁, h, old => by
    simp only [Node.ids, fieldsIds_cons, Field.ids_child, Field.ids_many, before_cons, before_append] at old
    obtain ⟨-, otest, obody, oorelse, -⟩ := old
    cases shape_of_fits (isA_mk.1 h).2 with
    | whileLoop htest hsome hbody horelse =>
      refine left_mk ?_ nofun
      simp only [closedFields_cons, closedField_child]
      exact ⟨(ht.left htest otest).closed, (arm₀.left (hb.left hbody obody).1).field,
        (arm₁.left (ho.left horelse oorelse).1).field, closedFields_nil⟩
  | .forLoop _ ht hs hb arm₀ ho arm₁ _, h, old => by
    simp only [Node.ids, fieldsIds_cons, Field.ids_child, Field.ids_many, before_cons, before_append] at old
    obtain ⟨-, otarget, oiter, obody, oorelse, -⟩ := old
    cases shape_of_fits (isA_mk.1 h).2 with
    | forLoop htarget hiter hsome hbody horelse hcomment =>
      refine left_mk ?_ nofun
      simp only [closedFields_cons, closedField_child]
      exact ⟨(ht.left htarget otarget).closed, (hs.left hiter oiter).closed, (arm₀.left (hb.left hbody obody).1).field,
        (arm₁.left (ho.left horelse oorelse).1).field, closedField_of_fits hcomment rfl, closedFields_nil⟩
  | .tryStmt _ hb hh ho hf arms, h, old => by
    simp only [Node.ids, fieldsIds_cons, Field.ids_many, before_cons, before_append] at old
    obtain ⟨-, obody, ohandlers, oorelse, ofinalbody, -⟩ := old
    cases shape_of_fits (isA_mk.1 h).2 with
    | tryStmt hsome hbody hhandlers horelse hfinalbody =>
      have hh := hh.left hhandlers ohandlers
      refine left_mk ?_ nofun
      simp only [closedFields_cons]
      exact ⟨(arms.left (hb.left hbody obody).1).field, closedField_many hh.1 hh.2, (ho.left horelse oorelse).1.field,
        (hf.left hfinalbody ofinalbody).1.field, closedFields_nil⟩
  | .plain _ noRule hfs, h, old => by
    simp only [Node.ids, before_cons] at old
    have hfs := hfs.left (isA_mk.1 h).2 (listsStatements_contents _) (blocksWalked_contents _) old.2
    exact left_mk hfs.1 fun _ ↦ .plain (not_hasRule_of_fits (isA_mk.1 h).2 noRule _) hfs.2

/-- The first link is marked, and nothing below is left open. -/
theorem WovenChain.left {i : NodeId} {p : Place} {arms t : List Tag} {fs : List Field} {n' : Node} :
    WovenChain plan marks first final i p arms fs t n' → fieldsFit full (NodeClass.contents .ifStmt) fs = true →
      Before first (fieldsIds fs) →
      ∃ fs', n' = .mk i .ifStmt p fs' ∧ final.holds n' = true ∧ ClosedFields plan marks first final fs'
  | .last held ht hb arm₀ ho arm₁, h, old => by
    simp only [fieldsIds_cons, Field.ids_child, Field.ids_many, before_append] at old
    obtain ⟨otest, obody, oorelse, -⟩ := old
    cases shape_of_fits h with
    | ifStmt htest hsome hbody horelse =>
      refine ⟨_, rfl, held, ?_⟩
      simp only [closedFields_cons, closedField_child]
      exact ⟨(ht.left htest otest).closed, (arm₀.left (hb.left hbody obody).1).field,
        (arm₁.left (ho.left horelse oorelse).1).field, closedFields_nil⟩
  | .link held _ ht hb arm next, h, old => by
    simp only [fieldsIds_cons, Field.ids_child, Field.ids_many, nodesIds, Node.ids, before_append, before_cons] at old
    obtain ⟨otest, obody, ⟨⟨-, onext⟩, -⟩, -⟩ := old
    cases shape_of_fits h with
    | ifStmt htest hsome hbody horelse =>
      have hnext := (nodesAre_cons.1 horelse).1.resolve_right (by simp)
      obtain ⟨fs', rfl, heldNext, hfs⟩ := next.left (isA_mk.1 hnext).2 onext
      refine ⟨_, rfl, held, ?_⟩
      simp only [closedFields_cons, closedField_child]
      refine ⟨(ht.left htest otest).closed, (arm.left (hb.left hbody obody).1).field, ?_, closedFields_nil⟩
      -- the next link is marked, so it alone is a settled block
      exact (closedBlock_cons (passesOver_of_holds false heldNext) (closed_mk _ _ _ hfs) closedBlock_nil).field
  | .other noLink _, h, _ => by
    cases shape_of_fits h with
    | ifStmt => cases noLink

/-- Woven blocks are closed, up to the docstring. -/
theorem WovenBlock.left {doc : Bool} {body b : List Node} {t : List Tag} :
    WovenBlock plan marks first final doc body t b → nodesAre full false .statement body = true →
      Before first (nodesIds body) →
      ClosedBlock plan marks first final (doc && startsWithDocstring body) b ∧ startsBlock b = startsBlock body
  | .nil, _, _ => ⟨closedBlock_nil, rfl⟩
  | .skip hover kept hrest, h, old => by
    obtain ⟨hs, hare⟩ := nodesAre_cons.1 h
    have hs := hs.resolve_right (by simp)
    rw [nodesIds, before_append] at old
    exact ⟨closedBlock_cons (passesOver_of_agrees hover kept) (closed_of_passesOver hs old.1 hover)
      (hrest.left hare old.2).1, rfl⟩
  | .gap _, h, _ => by simp [nodesAre, Node.isA] at h
  | .stmt _ held hs hrest counted, h, old => by
    obtain ⟨hfits, hare⟩ := nodesAre_cons.1 h
    have hfits := hfits.resolve_right (by simp)
    rw [nodesIds, before_append] at old
    have hs := hs.left hfits old.1
    have hrest := (hrest.left hare old.2).1
    have hstatement := isStatement_of_isA hfits
    have hstmt : Finished plan marks first final _ :=
      ⟨(hs.holds final).trans held, hs.closed, hs.isStatement.trans hstatement⟩
    cases counted with
    | bare => exact ⟨hstmt.cons _ hrest, hstmt.statement.trans hstatement.symm⟩
    | front fresh =>
      exact ⟨(finished_counter fresh _ _).cons _ (hstmt.cons false hrest), hstatement.symm⟩

theorem WovenOperands.left {keys : List (Option Key)} {vs ws : List Node} {t : List Tag} :
    WovenOperands plan marks first final keys vs t ws → nodesAre full false .expression vs = true →
      Before first (nodesIds vs) → startsBlock ws = false ∧ ClosedAll plan marks first final ws
  | .nil, _, _ => ⟨rfl, closedAll_nil⟩
  | .cons hv arm hvs, h, old => by
    obtain ⟨hfits, hare⟩ := nodesAre_cons.1 h
    have hfits := hfits.resolve_right (by simp)
    rw [nodesIds, before_append] at old
    have hv := hv.left hfits old.1
    have harm := arm.left hv.closed
    exact ⟨harm.2 (hv.isStatement.trans (not_isStatement_of_isA hfits (by decide))),
      closedAll_cons.2 ⟨harm.1, (hvs.left hare old.2).2⟩⟩

theorem WovenCases.left {keys : List (Option Key)} {cs cs' : List Node} {t : List Tag} :
    WovenCases plan marks first final keys cs t cs' → nodesAre full false .case cs = true →
      Before first (nodesIds cs) → startsBlock cs' = false ∧ ClosedAll plan marks first final cs'
  | .nil, _, _ => ⟨rfl, closedAll_nil⟩
  | .cons _ hg hb arm hrest, h, old => by
    obtain ⟨hn, hare⟩ := nodesAre_cons.1 h
    simp only [nodesIds, Node.ids, fieldsIds_cons, Field.ids_child, Field.ids_many, before_append, before_cons] at old
    obtain ⟨⟨-, -, oguard, obody, -⟩, orest⟩ := old
    cases shape_of_fits (isA_mk.1 (hn.resolve_right (by simp))).2 with
    | matchCase hpattern hguard hsome hbody =>
      refine ⟨rfl, closedAll_cons.2 ⟨closed_mk _ _ _ ?_, (hrest.left hare orest).2⟩⟩
      simp only [closedFields_cons, closedField_child]
      exact ⟨closed_of_isA rfl hpattern, (hg.left hguard rfl oguard).1, (arm.left (hb.left hbody obody).1).field,
        closedFields_nil⟩

theorem WovenHandlers.left {hs hs' : List Node} {t : List Tag} :
    WovenHandlers plan marks first final hs t hs' → nodesAre full false .handler hs = true →
      Before first (nodesIds hs) → startsBlock hs' = false ∧ ClosedAll plan marks first final hs'
  | .other noHandler _, h, _ => by
    cases hs with
    | nil => exact ⟨rfl, closedAll_nil⟩
    | cons n hs =>
      cases n with
      | gap => simp [nodesAre, Node.isA] at h
      | mk i c p fs =>
        obtain ⟨hc, hfs⟩ := isA_mk.1 ((nodesAre_cons.1 h).1.resolve_right (by simp))
        obtain rfl := class_of_category.2 hc
        cases shape_of_fits hfs with
        | handler => cases noHandler
  | .cons _ ht hb hrest, h, old => by
    obtain ⟨hn, hare⟩ := nodesAre_cons.1 h
    obtain ⟨hc, hfs⟩ := isA_mk.1 (hn.resolve_right (by simp))
    obtain rfl := class_of_category.2 hc
    simp only [nodesIds, Node.ids, fieldsIds_cons, Field.ids_many, before_append, before_cons] at old
    obtain ⟨⟨-, otype, -, obody, -⟩, orest⟩ := old
    cases shape_of_fits hfs with
    | handler htype hname hsome hbody =>
      refine ⟨rfl, closedAll_cons.2 ⟨closed_mk _ _ _ ?_, (hrest.left hare orest).2⟩⟩
      simp only [closedFields_cons]
      exact ⟨(ht.left htype rfl otype).1, closedField_of_fits hname rfl, (hb.left hbody obody).1.field,
        closedFields_nil⟩

theorem WovenFields.left {names : List String} {contents : List Content} {fs fs' : List Field} {t : List Tag} :
    WovenFields plan marks first final names fs t fs' → fieldsFit full contents fs = true →
      (∀ content ∈ contents, content.listsStatements = true) → blocksWalked names contents = true →
      Before first (fieldsIds fs) → ClosedFields plan marks first final fs' ∧ RestsFields plan final names fs'
  | .done, _, _, _, _ => ⟨closedFields_nil, .nil⟩
  | .beyond _, h, _, hwalked, _ => by
    cases contents with
    | nil =>
      obtain rfl := fieldsFit_nil.1 h
      exact ⟨closedFields_nil, .nil⟩
    | cons content contents => cases hwalked
  | .skipped hover _ hfs, h, hlists, hwalked, old => by
    cases contents with
    | nil => cases hwalked
    | cons content contents =>
      simp only [fieldsFit, blocksWalked, Bool.and_eq_true, Bool.or_eq_true, Bool.not_eq_true'] at h hwalked
      rw [fieldsIds_cons, before_append] at old
      have hblocks := hwalked.1.resolve_left (by simp [hover])
      have hfs := hfs.left h.2 (fun _ hmem ↦ hlists _ (.tail _ hmem)) hwalked.2 old.2
      exact ⟨closedFields_cons.2 ⟨closedField_of_fits h.1 hblocks, hfs.1⟩, .skipped hover hfs.2⟩
  | .walked _ hf hfs, h, hlists, hwalked, old => by
    cases contents with
    | nil => cases hwalked
    | cons content contents =>
      simp only [fieldsFit, blocksWalked, Bool.and_eq_true] at h hwalked
      rw [fieldsIds_cons, before_append] at old
      have hf := hf.left h.1 (hlists _ (.head _)) old.1
      have hfs := hfs.left h.2 (fun _ hmem ↦ hlists _ (.tail _ hmem)) hwalked.2 old.2
      exact ⟨closedFields_cons.2 ⟨hf.1, hfs.1⟩, .walked hf.2 hfs.2⟩

theorem WovenField.left {content : Content} {f f' : Field} {t : List Tag} :
    WovenField plan marks first final f t f' → f.fits full content = true → content.listsStatements = true →
      Before first f.ids → ClosedField plan marks first final f' ∧ RestsField plan final f'
  | .child hn, h, hlists, old => by
    obtain ⟨cat, hcat, hfits⟩ := isA_of_fits_child h hlists
    rw [Field.ids_child] at old
    have hn := hn.left hfits old
    exact ⟨closedField_child.2 hn.closed, .child (hn.rests (not_markedByBlock_of_isA hfits hcat))⟩
  | .block starts hns, h, hlists, old => by
    rw [Field.ids_many] at old
    rcases nodesAre_of_fits_many h hlists with ⟨-, hare⟩ | ⟨hstarts, -⟩
    · have hns := hns.left hare old
      exact ⟨hns.1.field, .block (hns.2.trans starts) hns.1.settled⟩
    · rw [starts] at hstarts
      cases hstarts
  | .all starts hns, h, hlists, old => by
    rw [Field.ids_many] at old
    rcases nodesAre_of_fits_many h hlists with ⟨hstarts, -⟩ | ⟨-, gaps, cat, hcat, hare⟩
    · rw [starts] at hstarts
      cases hstarts
    · have hns := hns.left hare hcat old
      exact ⟨closedField_many hns.1 hns.2.1, .all hns.1 hns.2.2⟩
  | .atom holdsNone, _, _, _ => ⟨closedField_atom holdsNone, .atom holdsNone⟩

theorem WovenAll.left {gaps : Bool} {cat : Category} {ns ns' : List Node} {t : List Tag} :
    WovenAll plan marks first final ns t ns' → nodesAre full gaps cat ns = true → cat ≠ .statement →
      Before first (nodesIds ns) →
      startsBlock ns' = false ∧ ClosedAll plan marks first final ns' ∧ RestsAll plan final ns'
  | .nil, _, _, _ => ⟨rfl, closedAll_nil, .nil⟩
  | .cons hn hns, h, hcat, old => by
    obtain ⟨hfits, hare⟩ := nodesAre_cons.1 h
    rw [nodesIds, before_append] at old
    obtain ⟨-, hclosed, hrests⟩ := hns.left hare hcat old.2
    rcases hfits with hfits | ⟨-, rfl⟩
    · have hn := hn.left hfits old.1
      exact ⟨hn.isStatement.trans (not_isStatement_of_isA hfits hcat), closedAll_cons.2 ⟨hn.closed, hclosed⟩,
        .cons (hn.rests (not_markedByBlock_of_isA hfits hcat)) hrests⟩
    · cases hn
      exact ⟨rfl, closedAll_cons.2 ⟨closed_gap, hclosed⟩, .cons .gap hrests⟩
end

end Coverage.Pass
