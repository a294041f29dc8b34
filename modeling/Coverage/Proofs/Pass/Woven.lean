import Coverage.Proofs.Pass.Enrolment

/-!
# Woven trees

`Woven plan marks first final n tags n'` says that `n'` is the node `n` with probes put in as the tags say: a
label with a key stands for exactly one probe, at the place that belongs to its event, and a label without a
key for none. The identities of probes start at `first`. Nodes with one of the `marks` are left as they are, and
`final` are the marks that there are in the end: the probes and the nodes that were dealt with have one, and in
what was passed over there is no new one. The relation says what a walk can do to a tree without a state, so
what holds of every woven tree holds of the result of every walk.
-/

namespace Coverage.Marks

/-- Of these nodes the same are marked here and there. -/
def AgreesOn (m : Marks) (ids : List Syntax.NodeId) (m' : Marks) : Prop :=
  ∀ i ∈ ids, m'.contains i = m.contains i

theorem AgreesOn.holds {m m' : Marks} {n : Syntax.Node} (h : m.AgreesOn n.ids m') : m'.holds n = m.holds n := by
  cases n with
  | gap => rfl
  | mk i c p fs => exact h i (by simp [Syntax.Node.ids])

end Coverage.Marks

namespace Coverage.Pass

open Syntax Program

/-! ## Probes -/

section Probes

variable (plan : Plan) (first : NodeId) (final : Marks)

/-- Identities for a probe, none in use before, all marked in the end. -/
structure Fresh (size : Nat) (j : NodeId) : Prop where
  le : first ≤ j
  held : ∀ k < size, final.contains (j + k) = true

/-- A block with a counter in front if there is a key. -/
inductive Counted : Option Key → Place → List Node → List Node → Prop
  | bare {place b} : Counted none place b b
  | front {k place b j} (fresh : Fresh first final Probe.counterSize j) :
    Counted (some k) place b (Probe.counter plan k place j :: b)

/-- The body of a function with a counter if there is a key, behind the docstring if there is one. -/
inductive Entered : Option Key → Bool → List Node → List Node → Prop
  | bare {doc b} : Entered none doc b b
  | front {k s b j} (fresh : Fresh first final Probe.counterSize j) :
    Entered (some k) false (s :: b) (Probe.counter plan k s.place j :: s :: b)
  | behind {k d s b j} (fresh : Fresh first final Probe.counterSize j) :
    Entered (some k) true (d :: s :: b) (d :: Probe.counter plan k s.place j :: s :: b)
  | last {k d j} (fresh : Fresh first final Probe.counterSize j) :
    Entered (some k) true [d] [d, Probe.counter plan k d.place j]

/-- An expression, counted if there is a key. -/
inductive Wrapped : Option Key → Node → Node → Prop
  | bare {e} : Wrapped none e e
  | wrapped {k e j} (fresh : Fresh first final Probe.wrapperSize j) : Wrapped (some k) e (Probe.wrapper plan k e j)

/-- The body of a `try`, guarded if there are keys for both its arms. -/
inductive Guarded : Option Key → Option Key → List Node → List Node → Prop
  | bare {b} : Guarded none none b b
  | guarded {ok error s b j} (fresh : Fresh first final Probe.guardSize j) :
    Guarded (some ok) (some error) (s :: b) [Probe.guard plan ok error s.place (s :: b) j]

/-- The cases of a `match`, with one for a subject that no case matches if there is a key. -/
inductive Completed : Option Key → Place → List Node → List Node → Prop
  | bare {place cs} : Completed none place cs cs
  | fallback {k place cs j} (fresh : Fresh first final Probe.fallbackSize j) :
    Completed (some k) place cs (cs ++ [Probe.fallback plan k place j])

end Probes

theorem Counted.eq_of_none {plan : Plan} {first : NodeId} {final : Marks} {place : Place} {b b' : List Node}
    (h : Counted plan first final none place b b') : b' = b := by
  cases h
  rfl

/-- The place of the first node of a block, or another one if the block is empty. -/
def anchor (block : List Node) (other : Place) : Place := (block.head?.map Node.place).getD other

def armTags (i : NodeId) : Nat → List (Option Key) → List Tag
  | _, [] => []
  | a, key :: keys => .label (.took i a) key :: armTags i (a + 1) keys

theorem armTags_append (i : NodeId) (a : Nat) (keys more : List (Option Key)) :
    armTags i a (keys ++ more) = armTags i a keys ++ armTags i (a + keys.length) more := by
  induction keys generalizing a with
  | nil => rfl
  | cons key keys ih => simp [armTags, ih, Nat.add_assoc, Nat.add_comm 1]

def startsWithDocstring (body : List Node) : Bool := (body.head?.map Node.isDocstring).getD false

/-- Whether a list starts with a node that has the fields of a handler. -/
def startsWithHandler : List Node → Bool
  | .mk _ _ _ [_, _, .many _] :: _ => true
  | _ => false

/-- Whether a field holds no nodes. -/
def isAtom : Field → Bool
  | .child _ | .many _ => false
  | _ => true

/-- Whether a walk has a rule of its own for a node with this class and these fields. -/
def hasRule : NodeClass → List Field → Bool
  | .module, [.many _, _] => true
  | .classDef, [_, .many _, .many _, .many _, .many _] => true
  | .functionDef _, [.text _, .child _, .many _, .many _, _, _] => true
  | .lambda, [.child _, .child _] => true
  | .ifStmt, _ => true
  | .ifExp, [.child _, .child _, .child _] => true
  | .boolOp, [_, .many _] => true
  | .matchStmt, [.child _, .many _] => true
  | .whileLoop, [.child _, .many _, .many _] => true
  | .forLoop _, [.child _, .child _, .many _, .many _, _] => true
  | .tryStmt _, [.many _, .many _, .many _, .many _] => true
  | _, _ => false

theorem sites_of_not_hasRule {plan : Plan} {marks : Marks} {i : NodeId} {c : NodeClass} {fs : List Field}
    (held : marks.contains i = false) (noRule : hasRule c fs = false) (p : Place) :
    sites plan marks (.mk i c p fs) = fieldsSites plan marks c.fieldNames fs := by
  rw [sites, if_neg (by simp [held])]
  all_goals
    intros
    subst_vars
    simp [hasRule] at noRule

/-! ## The relation -/

section Woven

variable (plan : Plan) (marks : Marks) (first : NodeId) (final : Marks)

/-- The node had no mark, and has one in the end. -/
structure Dealt (i : NodeId) : Prop where
  free : marks.contains i = false
  held : final.contains i = true

mutual
/-- The second node is the first with probes put in. -/
inductive Woven : Node → List Tag → Node → Prop
  | gap : Woven .gap [] .gap
  | marked {i c p fs} (held : marks.contains i = true) (kept : marks.AgreesOn (Node.mk i c p fs).ids final) :
    Woven (.mk i c p fs) (.silent i :: hushTags (fieldsIds fs)) (.mk i c p fs)
  | module {i p ignores body t b} (dealt : Dealt marks final i) (hb : WovenBlock true body t b)
    (kept : marks.AgreesOn ignores.ids final) :
    Woven (.mk i .module p [.many body, ignores]) t (.mk i .module p [.many b, ignores])
  | classDef {i p name bases keywords body decorators t₁ t₂ t₃ t₄ bs ks b ds}
    (free : marks.contains i = false) (hds : WovenAll decorators t₁ ds) (hbs : WovenAll bases t₂ bs)
    (hks : WovenAll keywords t₃ ks) (hb : WovenBlock true body t₄ b)
    (kept : marks.AgreesOn name.ids final) :
    Woven (.mk i .classDef p [name, .many bases, .many keywords, .many body, .many decorators])
      (t₁ ++ t₂ ++ t₃ ++ t₄) (.mk i .classDef p [name, .many bs, .many ks, .many b, .many ds])
  | functionDef {i async p name args body decorators returns comment key t₁ t₂ t₃ ds a b b'}
    (free : marks.contains i = false) (hds : WovenAll decorators t₁ ds) (ha : Woven args t₂ a)
    (hb : WovenBlock true body t₃ b) (entry : Entered plan first final key (startsWithDocstring body) b b')
    (kept : marks.AgreesOn (returns.ids ++ comment.ids) final) :
    Woven (.mk i (.functionDef async) p
        [.text name, .child args, .many body, .many decorators, returns, comment])
      (.label (.entered i) key :: (t₁ ++ t₂ ++ t₃))
      (.mk i (.functionDef async) p [.text name, .child a, .many b', .many ds, returns, comment])
  | lambda {i p args body key t₁ t₂ a b b'} (dealt : Dealt marks final i) (ha : Woven args t₁ a)
    (hb : Woven body t₂ b) (entry : Wrapped plan first final key b b') :
    Woven (.mk i .lambda p [.child args, .child body]) (.label (.entered i) key :: (t₁ ++ t₂))
      (.mk i .lambda p [.child a, .child b'])
  | ifStmt {i p fs arms t n} (free : marks.contains i = false) (chain : WovenChain i p arms fs t n) :
    Woven (.mk i .ifStmt p fs) (arms ++ t) n
  | ifExp {i p test body orelse k₀ k₁ t₁ t₂ t₃ t b b' o o'} (dealt : Dealt marks final i) (ht : Woven test t₁ t)
    (hb : Woven body t₂ b) (ho : Woven orelse t₃ o) (arm₀ : Wrapped plan first final k₀ b b')
    (arm₁ : Wrapped plan first final k₁ o o') :
    Woven (.mk i .ifExp p [.child test, .child body, .child orelse])
      (armTags i 0 [k₀, k₁] ++ (t₁ ++ t₂ ++ t₃)) (.mk i .ifExp p [.child t, .child b', .child o'])
  | boolOp {i p op values keys t vs} (dealt : Dealt marks final i) (hvs : WovenOperands keys values t vs)
    (kept : marks.AgreesOn op.ids final) :
    Woven (.mk i .boolOp p [op, .many values]) (armTags i 0 keys ++ t) (.mk i .boolOp p [op, .many vs])
  | matchStmt {i p subject cases keys k t₁ t₂ s cs cs'} (free : marks.contains i = false)
    (hs : Woven subject t₁ s) (hcs : WovenCases keys cases t₂ cs)
    (rest : Completed plan first final k s.place cs cs')
    (covered : (cases.getLast?.map (·.isDefaultCase)).getD false = true → k = none) :
    Woven (.mk i .matchStmt p [.child subject, .many cases]) (armTags i 0 (keys ++ [k]) ++ (t₁ ++ t₂))
      (.mk i .matchStmt p [.child s, .many cs'])
  | whileLoop {i p test body orelse k₀ k₁ t₁ t₂ t₃ t b b' o o'} (free : marks.contains i = false)
    (ht : Woven test t₁ t) (hb : WovenBlock false body t₂ b)
    (arm₀ : Counted plan first final k₀ (anchor b {}) b b') (ho : WovenBlock false orelse t₃ o)
    (arm₁ : Counted plan first final k₁ (anchor o t.place) o o') :
    Woven (.mk i .whileLoop p [.child test, .many body, .many orelse])
      (armTags i 0 [k₀, k₁] ++ (t₁ ++ t₂ ++ t₃)) (.mk i .whileLoop p [.child t, .many b', .many o'])
  | forLoop {i async p target iter body orelse comment k₀ k₁ t₁ t₂ t₃ t₄ t s b b' o o'}
    (free : marks.contains i = false) (ht : Woven target t₁ t) (hs : Woven iter t₂ s)
    (hb : WovenBlock false body t₃ b) (arm₀ : Counted plan first final k₀ (anchor b {}) b b')
    (ho : WovenBlock false orelse t₄ o) (arm₁ : Counted plan first final k₁ (anchor o s.place) o o')
    (kept : marks.AgreesOn comment.ids final) :
    Woven (.mk i (.forLoop async) p [.child target, .child iter, .many body, .many orelse, comment])
      (armTags i 0 [k₀, k₁] ++ (t₁ ++ t₂ ++ t₃ ++ t₄))
      (.mk i (.forLoop async) p [.child t, .child s, .many b', .many o', comment])
  | tryStmt {i star p body handlers orelse finalbody k₀ k₁ t₁ t₂ t₃ t₄ b b' h o f}
    (free : marks.contains i = false) (hb : WovenBlock false body t₁ b) (hh : WovenHandlers handlers t₂ h)
    (ho : WovenBlock false orelse t₃ o) (hf : WovenBlock false finalbody t₄ f)
    (arms : Guarded plan first final k₀ k₁ b b') :
    Woven (.mk i (.tryStmt star) p [.many body, .many handlers, .many orelse, .many finalbody])
      (armTags i 0 [k₀, k₁] ++ (t₁ ++ t₂ ++ t₃ ++ t₄))
      (.mk i (.tryStmt star) p [.many b', .many h, .many o, .many f])
  | plain {i c p fs t fs'} (free : marks.contains i = false) (noRule : hasRule c fs = false)
    (hfs : WovenFields c.fieldNames fs t fs') : Woven (.mk i c p fs) t (.mk i c p fs')

/-- An `if` chain from a link on. The arms of its links have their tags apart, since all of them are offered
before the walk goes into the first link. -/
inductive WovenChain : NodeId → Place → List Tag → List Field → List Tag → Node → Prop
  | last {i p test body orelse k₀ k₁ t₁ t₂ t₃ t b b' o o'} (held : final.contains i = true)
    (ht : Woven test t₁ t) (hb : WovenBlock false body t₂ b)
    (arm₀ : Counted plan first final k₀ (anchor b {}) b b') (ho : WovenBlock false orelse t₃ o)
    (arm₁ : Counted plan first final k₁ (anchor o t.place) o o') :
    WovenChain i p (armTags i 0 [k₀, k₁]) [.child test, .many body, .many orelse] (t₁ ++ t₂ ++ t₃)
      (.mk i .ifStmt p [.child t, .many b', .many o'])
  | link {i p test body k j q fs arms t₁ t₂ t₃ t b b' o} (held : final.contains i = true)
    (walked : passesOver plan marks false (.mk j .ifStmt q fs) = false) (ht : Woven test t₁ t)
    (hb : WovenBlock false body t₂ b) (arm : Counted plan first final k (anchor b {}) b b')
    (next : WovenChain j q arms fs t₃ o) :
    WovenChain i p (.label (.took i 0) k :: arms) [.child test, .many body, .many [.mk j .ifStmt q fs]]
      (t₁ ++ t₂ ++ (.label (.took i 1) none :: .label (.started j) none :: t₃))
      (.mk i .ifStmt p [.child t, .many b', .many [o]])
  | other {i p fs} (noLink : isLink (.mk i .ifStmt p fs) = false) (kept : marks.AgreesOn (fieldsIds fs) final) :
    WovenChain i p [] fs [] (.mk i .ifStmt p fs)

/-- A block; the flag tells whether it can start with a docstring. -/
inductive WovenBlock : Bool → List Node → List Tag → List Node → Prop
  | nil {doc} : WovenBlock doc [] [] []
  | skip {doc s rest t rest'} (hover : passesOver plan marks doc s = true) (kept : marks.AgreesOn s.ids final)
    (hrest : WovenBlock false rest t rest') : WovenBlock doc (s :: rest) (hushTags s.ids ++ t) (s :: rest')
  | gap {doc rest t rest'} (hrest : WovenBlock false rest t rest') : WovenBlock doc (.gap :: rest) t (.gap :: rest')
  | stmt {doc i c p fs rest key t₁ t₂ s rest' b} (walked : passesOver plan marks doc (.mk i c p fs) = false)
    (held : final.contains i = true) (hs : Woven (.mk i c p fs) t₁ s) (hrest : WovenBlock false rest t₂ rest')
    (counted : Counted plan first final key p (s :: rest') b) :
    WovenBlock doc (.mk i c p fs :: rest) (.label (.started i) key :: (t₁ ++ t₂)) b

inductive WovenOperands : List (Option Key) → List Node → List Tag → List Node → Prop
  | nil : WovenOperands [] [] [] []
  | cons {key keys v vs t₁ t₂ v' w ws} (hv : Woven v t₁ v') (arm : Wrapped plan first final key v' w)
    (hvs : WovenOperands keys vs t₂ ws) : WovenOperands (key :: keys) (v :: vs) (t₁ ++ t₂) (w :: ws)

inductive WovenCases : List (Option Key) → List Node → List Tag → List Node → Prop
  | nil : WovenCases [] [] [] []
  | cons {key keys i p pattern guard body rest t₁ t₂ t₃ g b b' rest'} (kept : marks.AgreesOn pattern.ids final)
    (hg : WovenField guard t₁ g) (hb : WovenBlock false body t₂ b)
    (arm : Counted plan first final key (anchor b {}) b b') (hrest : WovenCases keys rest t₃ rest') :
    WovenCases (key :: keys) (.mk i .matchCase p [.child pattern, guard, .many body] :: rest)
      (hushTags pattern.ids ++ t₁ ++ t₂ ++ t₃)
      (.mk i .matchCase p [.child pattern, g, .many b'] :: rest')

inductive WovenHandlers : List Node → List Tag → List Node → Prop
  | other {hs} (noHandler : startsWithHandler hs = false) (kept : marks.AgreesOn (nodesIds hs) final) :
    WovenHandlers hs [] hs
  | cons {i c p type name body rest t₁ t₂ t₃ t b rest'} (kept : marks.AgreesOn name.ids final)
    (ht : WovenField type t₁ t) (hb : WovenBlock false body t₂ b) (hrest : WovenHandlers rest t₃ rest') :
    WovenHandlers (.mk i c p [type, name, .many body] :: rest) (t₁ ++ t₂ ++ t₃)
      (.mk i c p [t, name, .many b] :: rest')

/-- Fields with their names. -/
inductive WovenFields : List String → List Field → List Tag → List Field → Prop
  | done {names} : WovenFields names [] [] []
  | beyond {fs} (kept : marks.AgreesOn (fieldsIds fs) final) : WovenFields [] fs [] fs
  | skipped {name names f fs t fs'} (hover : isSkippedField name = true) (kept : marks.AgreesOn f.ids final)
    (hfs : WovenFields names fs t fs') : WovenFields (name :: names) (f :: fs) t (f :: fs')
  | walked {name names f fs t₁ t₂ f' fs'} (into : isSkippedField name = false) (hf : WovenField f t₁ f')
    (hfs : WovenFields names fs t₂ fs') : WovenFields (name :: names) (f :: fs) (t₁ ++ t₂) (f' :: fs')

inductive WovenField : Field → List Tag → Field → Prop
  | child {n t n'} (hn : Woven n t n') : WovenField (.child n) t (.child n')
  | block {ns t ns'} (starts : startsBlock ns = true) (hns : WovenBlock false ns t ns') :
    WovenField (.many ns) t (.many ns')
  | all {ns t ns'} (starts : startsBlock ns = false) (hns : WovenAll ns t ns') : WovenField (.many ns) t (.many ns')
  | atom {f} (holdsNone : isAtom f = true) : WovenField f [] f

inductive WovenAll : List Node → List Tag → List Node → Prop
  | nil : WovenAll [] [] []
  | cons {n ns t₁ t₂ n' ns'} (hn : Woven n t₁ n') (hns : WovenAll ns t₂ ns') :
    WovenAll (n :: ns) (t₁ ++ t₂) (n' :: ns')
end

end Woven

/-- A node that is marked beforehand stays as it is, and so do the marks in it. -/
theorem Woven.of_holds {plan : Plan} {marks : Marks} {first : NodeId} {final : Marks} {n n' : Node} {t : List Tag}
    (h : Woven plan marks first final n t n') (held : marks.holds n = true) :
    n' = n ∧ marks.AgreesOn n.ids final := by
  have hfree : ∀ {i c p fs}, marks.contains i = false → marks.holds (.mk i c p fs) ≠ true := by
    intro i c p fs free
    simp [Marks.holds, free]
  cases h with
  | gap => cases held
  | marked _ kept => exact ⟨rfl, kept⟩
  | module dealt | lambda dealt | ifExp dealt | boolOp dealt => exact absurd held (hfree dealt.free)
  | classDef free | functionDef free | ifStmt free | matchStmt free | whileLoop free | forLoop free | tryStmt free
  | plain free => exact absurd held (hfree free)

/-- A docstring is passed over. -/
theorem WovenBlock.docstring {plan : Plan} {marks : Marks} {first : NodeId} {final : Marks} {body b : List Node}
    {t : List Tag} (h : WovenBlock plan marks first final true body t b) (hdoc : startsWithDocstring body = true) :
    ∃ d rest t' rest', d.isDocstring = true ∧ body = d :: rest ∧ b = d :: rest' ∧ t = hushTags d.ids ++ t' ∧
      WovenBlock plan marks first final false rest t' rest' := by
  cases h with
  | nil => cases hdoc
  | skip hover _ hrest => exact ⟨_, _, _, _, hdoc, rfl, rfl, rfl, hrest⟩
  | gap hrest => cases hdoc
  | stmt walked _ hs hrest counted =>
    have hdoc' : Node.isDocstring (.mk _ _ _ _) = true := hdoc
    simp [passesOver, hdoc'] at walked

end Coverage.Pass
