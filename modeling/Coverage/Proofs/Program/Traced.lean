import Coverage.Program.Machine
import Coverage.Proofs.Program.Fragment

/-!
# Traced programs

`TracedStmt t s s'` says that `s'` is the statement `s` with counters put in: an event that `t` labels with a
key has a counter at the place where the event happens, and an event without a key has none. Expressions are
counted by an `or` whose first operand counts, blocks by a statement in front, the body of a `try` by a
guard around it, and a `match` that can fail by a case at its end. The relation also says that the original
does not bind the variable that counters use, and does not look at it unless the tracing allows it. Without
counters the relation holds between any code and itself.
-/

namespace Coverage.Program

open Syntax (NodeId)

/-- How a program is traced. -/
structure Tracing where
  /-- The variable that holds the ledger. -/
  globalName : String
  file : String
  /-- The keys under which events may be counted; `none` for not at all. -/
  labels : Event → Option Key → Prop
  /-- Whether code may look at the variable that holds the ledger. -/
  reads : Prop
  /-- Whether anything is counted. -/
  counts : Prop
  counted {event : Event} {key : Key} (label : labels event (some key)) : counts

namespace Tracing

variable (t : Tracing)

/-- The variable that code must not bind. -/
def Own (x : String) : Prop := t.counts ∧ x = t.globalName

def call (method : String) (keys : List Key) : Expr :=
  .call (.attribute (.name t.globalName) method) ((t.file :: keys).map fun s ↦ .const (.str s))

def counter (j : NodeId) (k : Key) : Stmt := .expr j (t.call "hit" [k])

/-- No entry and no arm of a node is counted. -/
structure Silent (i : NodeId) : Prop where
  entered : t.labels (.entered i) none
  took : ∀ a, t.labels (.took i a) none

end Tracing

section Traced

variable (t : Tracing)

mutual
inductive TracedExpr : Expr → Expr → Prop
  | const {c} : TracedExpr (.const c) (.const c)
  | name {x} (hx : ¬t.Own x ∨ t.reads) : TracedExpr (.name x) (.name x)
  | arith {op left right left' right'} (hl : TracedExpr left left') (hr : TracedExpr right right') :
    TracedExpr (.arith op left right) (.arith op left' right')
  | unary {op e e'} (he : TracedExpr e e') : TracedExpr (.unary op e) (.unary op e')
  | compare {first relations rest first' rest'} (hf : TracedExpr first first') (hr : TracedExprs rest rest') :
    TracedExpr (.compare first relations rest) (.compare first' relations rest')
  | logic {i op operands operands'} (ho : TracedOperands i 0 operands operands') :
    TracedExpr (.logic i op operands) (.logic i op operands')
  | ifElse {i test body orelse test' body' orelse'} (ht : TracedExpr test test')
    (hb : TracedArm (.took i 0) body body') (ho : TracedArm (.took i 1) orelse orelse') :
    TracedExpr (.ifElse i test body orelse) (.ifElse i test' body' orelse')
  | call {f args f' args'} (hf : TracedExpr f f') (ha : TracedExprs args args') :
    TracedExpr (.call f args) (.call f' args')
  | lambda {i params defaults body defaults' body'} (hp : ∀ x ∈ params, ¬t.Own x)
    (hd : TracedExprs defaults defaults') (hb : TracedArm (.entered i) body body') :
    TracedExpr (.lambda i params defaults body) (.lambda i params defaults' body')
  | list {items items'} (hi : TracedExprs items items') : TracedExpr (.list items) (.list items')
  | tuple {items items'} (hi : TracedExprs items items') : TracedExpr (.tuple items) (.tuple items')
  | collect {item target source conditions item' source' conditions'} (hx : ¬t.Own target)
    (hi : TracedExpr item item') (hs : TracedExpr source source') (hc : TracedExprs conditions conditions') :
    TracedExpr (.collect item target source conditions) (.collect item' target source' conditions')
  | item {e index e' index'} (he : TracedExpr e e') (hi : TracedExpr index index') :
    TracedExpr (.item e index) (.item e' index')
  | attribute {e name e'} (he : TracedExpr e e') : TracedExpr (.attribute e name) (.attribute e' name)
  | foreign : TracedExpr .foreign .foreign

/-- An expression whose evaluation is an event. -/
inductive TracedArm : Event → Expr → Expr → Prop
  | bare {event e e'} (label : t.labels event none) (he : TracedExpr e e') : TracedArm event e e'
  | counted {event e e' j k} (label : t.labels event (some k)) (he : TracedExpr e e') :
    TracedArm event e (.logic j .or [t.call "hit" [k], e'])

inductive TracedExprs : List Expr → List Expr → Prop
  | nil : TracedExprs [] []
  | cons {e es e' es'} (he : TracedExpr e e') (hes : TracedExprs es es') : TracedExprs (e :: es) (e' :: es')

/-- The operands of a node, counted from a position on. -/
inductive TracedOperands : NodeId → Nat → List Expr → List Expr → Prop
  | nil {i a} : TracedOperands i a [] []
  | cons {i a e es e' es'} (he : TracedArm (.took i a) e e') (hes : TracedOperands i (a + 1) es es') :
    TracedOperands i a (e :: es) (e' :: es')
end

inductive TracedOption : Option Expr → Option Expr → Prop
  | none : TracedOption none none
  | some {e e'} (he : TracedExpr t e e') : TracedOption (some e) (some e')

mutual
/-- A pattern, in which nothing is counted. -/
inductive PlainPattern : Pattern → Prop
  | value {e} (he : TracedExpr t e e) : PlainPattern (.value e)
  | singleton {c} : PlainPattern (.singleton c)
  | any : PlainPattern .any
  | capture {inner x} (hx : ¬t.Own x) (hi : PlainPattern inner) : PlainPattern (.capture inner x)
  | or {alternatives} (ha : PlainPatterns alternatives) : PlainPattern (.or alternatives)
  | foreign : PlainPattern .foreign

inductive PlainPatterns : List Pattern → Prop
  | nil : PlainPatterns []
  | cons {p ps} (hp : PlainPattern p) (hps : PlainPatterns ps) : PlainPatterns (p :: ps)
end

mutual
inductive TracedStmt : Stmt → Stmt → Prop
  | expr {i e e'} (he : TracedExpr t e e') : TracedStmt (.expr i e) (.expr i e')
  | assign {i targets value value'} (hx : ∀ x ∈ targets, ¬t.Own x) (hv : TracedExpr t value value') :
    TracedStmt (.assign i targets value) (.assign i targets value')
  | augment {i target op value value'} (hx : ¬t.Own target) (hv : TracedExpr t value value') :
    TracedStmt (.augment i target op value) (.augment i target op value')
  | ifElse {i test body orelse test' body' orelse'} (ht : TracedExpr t test test')
    (hb : TracedClause (.took i 0) body body') (ho : TracedClause (.took i 1) orelse orelse') :
    TracedStmt (.ifElse i test body orelse) (.ifElse i test' body' orelse')
  | whileLoop {i test body orelse test' body' orelse'} (ht : TracedExpr t test test')
    (hb : TracedClause (.took i 0) body body') (ho : TracedClause (.took i 1) orelse orelse') :
    TracedStmt (.whileLoop i test body orelse) (.whileLoop i test' body' orelse')
  | forLoop {i target source body orelse source' body' orelse'} (hx : ¬t.Own target)
    (hs : TracedExpr t source source') (hb : TracedClause (.took i 0) body body')
    (ho : TracedClause (.took i 1) orelse orelse') :
    TracedStmt (.forLoop i target source body orelse) (.forLoop i target source' body' orelse')
  | breakLoop {i} : TracedStmt (.breakLoop i) (.breakLoop i)
  | continueLoop {i} : TracedStmt (.continueLoop i) (.continueLoop i)
  | pass {i} : TracedStmt (.pass i) (.pass i)
  | giveBack {i value value'} (hv : TracedOption t value value') :
    TracedStmt (.giveBack i value) (.giveBack i value')
  | define {i name params defaults body defaults' body'} (hx : ¬t.Own name) (hp : ∀ x ∈ params, ¬t.Own x)
    (hd : TracedExprs t defaults defaults') (hb : TracedBody (.entered i) body body') :
    TracedStmt (.define i name params defaults body) (.define i name params defaults' body')
  | global {i names} (hx : ∀ x ∈ names, ¬t.Own x) : TracedStmt (.global i names) (.global i names)
  | raise {i exception exception'} (he : TracedOption t exception exception') :
    TracedStmt (.raise i exception) (.raise i exception')
  | attempt {i body handlers orelse final body' handlers' orelse' final'} (hb : TracedTry i body body')
    (hh : TracedHandlers handlers handlers') (ho : TracedBlock orelse orelse') (hf : TracedBlock final final') :
    TracedStmt (.attempt i body handlers orelse final) (.attempt i body' handlers' orelse' final')
  | choose {i subject cases subject' cases'} (hs : TracedExpr t subject subject')
    (hc : TracedCases i 0 cases cases') : TracedStmt (.choose i subject cases) (.choose i subject' cases')
  | future {i names} (hx : ∀ x ∈ names, ¬t.Own x) : TracedStmt (.future i names) (.future i names)
  | guarded {i manager body manager' body'} (hm : TracedExpr t manager manager') (hb : TracedBlock body body') :
    TracedStmt (.guarded i manager body) (.guarded i manager' body')
  | foreign {i} : TracedStmt (.foreign i) (.foreign i)

/-- A block whose statements may have counters in front. -/
inductive TracedBlock : List Stmt → List Stmt → Prop
  | nil : TracedBlock [] []
  | bare {s ss s' ss'} (label : t.labels (.started s.id) none) (hs : TracedStmt s s') (hss : TracedBlock ss ss') :
    TracedBlock (s :: ss) (s' :: ss')
  | counted {s ss s' ss' j k} (label : t.labels (.started s.id) (some k)) (hs : TracedStmt s s')
    (hss : TracedBlock ss ss') : TracedBlock (s :: ss) (t.counter j k :: s' :: ss')

/-- A block whose choice is an event. -/
inductive TracedClause : Event → List Stmt → List Stmt → Prop
  | bare {event ss ss'} (label : t.labels event none) (hss : TracedBlock ss ss') : TracedClause event ss ss'
  | counted {event ss ss' j k} (label : t.labels event (some k)) (hss : TracedBlock ss ss') :
    TracedClause event ss (t.counter j k :: ss')

/-- The body of a function. A docstring stays in front. -/
inductive TracedBody : Event → List Stmt → List Stmt → Prop
  | clause {event ss ss'} (hss : TracedClause event ss ss') : TracedBody event ss ss'
  | behind {event i c ss ss' j k} (quiet : t.labels (.started i) none) (label : t.labels event (some k))
    (hss : TracedBlock ss ss') :
    TracedBody event (.expr i (.const c) :: ss) (.expr i (.const c) :: t.counter j k :: ss')

/-- The body of a `try`. -/
inductive TracedTry : NodeId → List Stmt → List Stmt → Prop
  | bare {i ss ss'} (label₀ : t.labels (.took i 0) none) (label₁ : t.labels (.took i 1) none)
    (hss : TracedBlock ss ss') : TracedTry i ss ss'
  | counted {i ss ss' j ok error} (label₀ : t.labels (.took i 0) (some ok))
    (label₁ : t.labels (.took i 1) (some error)) (hss : TracedBlock ss ss') :
    TracedTry i ss [.guarded j (t.call "guard" [ok, error]) ss']

inductive TracedHandlers : List Handler → List Handler → Prop
  | nil : TracedHandlers [] []
  | cons {types name body hs types' body' hs'} (ht : TracedOption t types types')
    (hx : ∀ x, name = some x → ¬t.Own x) (hb : TracedBlock body body') (hhs : TracedHandlers hs hs') :
    TracedHandlers (.mk types name body :: hs) (.mk types' name body' :: hs')

/-- The cases of a `match`, counted from a position on. -/
inductive TracedCases : NodeId → Nat → List Case → List Case → Prop
  | nil {i a} (label : t.labels (.took i a) none) : TracedCases i a [] []
  | fallback {i a j k} (label : t.labels (.took i a) (some k)) :
    TracedCases i a [] [.mk .any none [t.counter j k]]
  | cons {i a pattern guard body cs guard' body' cs'} (hp : PlainPattern t pattern)
    (hg : TracedOption t guard guard') (hb : TracedClause (.took i a) body body')
    (hcs : TracedCases i (a + 1) cs cs') :
    TracedCases i a (.mk pattern guard body :: cs) (.mk pattern guard' body' :: cs')
end

/-- The body of the function of a node. -/
inductive TracedCode : NodeId → Body → Body → Prop
  | block {i ss ss'} (hss : TracedBody t (.entered i) ss ss') : TracedCode i (.block ss) (.block ss')
  | expr {i e e'} (he : TracedArm t (.entered i) e e') : TracedCode i (.expr e) (.expr e')

end Traced

/-! ## Names -/

/-- Bound and declared names stay the same, and those of some kind are not among the bound ones. -/
structure Kept (own : String → Prop) (bound declared bound' declared' : List String) : Prop where
  bound_eq : bound' = bound
  declared_eq : declared' = declared
  free : ∀ x ∈ bound, ¬own x

section Kept

variable {own : String → Prop}

theorem kept_self {bound declared : List String} (h : ∀ x ∈ bound, ¬own x) : Kept own bound declared bound declared :=
  ⟨rfl, rfl, h⟩

theorem kept_option {name : Option String} (h : ∀ x, name = some x → ¬own x) :
    Kept own name.toList [] name.toList [] :=
  kept_self (by simpa using h)

theorem Kept.append {b₁ b₂ d₁ d₂ b₁' b₂' d₁' d₂' : List String} (h₁ : Kept own b₁ d₁ b₁' d₁')
    (h₂ : Kept own b₂ d₂ b₂' d₂') : Kept own (b₁ ++ b₂) (d₁ ++ d₂) (b₁' ++ b₂') (d₁' ++ d₂') where
  bound_eq := by rw [h₁.bound_eq, h₂.bound_eq]
  declared_eq := by rw [h₁.declared_eq, h₂.declared_eq]
  free := List.forall_mem_append.2 ⟨h₁.free, h₂.free⟩

end Kept

section Names

variable {t : Tracing}

theorem TracedExprs.isEmpty_eq {es es' : List Expr} (h : TracedExprs t es es') :
    es'.isEmpty = es.isEmpty := by
  cases h <;> rfl

theorem TracedOperands.isEmpty_eq {i : NodeId} {n : Nat} {es es' : List Expr}
    (h : TracedOperands t i n es es') : es'.isEmpty = es.isEmpty := by
  cases h <;> rfl

/-- Blocks that bind and declare the same names. -/
abbrev KeptBlock (t : Tracing) (ss ss' : List Stmt) : Prop :=
  Kept t.Own (boundAll ss) (declaredAll ss) (boundAll ss') (declaredAll ss')

theorem Kept.counter {ss ss' : List Stmt} {j : NodeId} {k : Key} (h : KeptBlock t ss ss') :
    KeptBlock t ss (t.counter j k :: ss') :=
  ⟨h.bound_eq, h.declared_eq, h.free⟩

/-- Patterns do not bind the variable of counters. -/
theorem PlainPattern.not_own {p : Pattern} (h : PlainPattern t p) : ∀ x ∈ p.names, ¬t.Own x := by
  cases h with
  | value he => simp [Pattern.names]
  | singleton => simp [Pattern.names]
  | any => simp [Pattern.names]
  | capture hx hi =>
    rw [Pattern.names]
    exact List.forall_mem_cons.2 ⟨hx, hi.not_own⟩
  | or ha =>
    cases ha with
    | nil => simp [Pattern.names]
    | cons hp hps =>
      rw [Pattern.names]
      exact hp.not_own
  | foreign => simp [Pattern.names]

mutual
/-- Tracing keeps the names that a statement binds and declares. -/
theorem TracedStmt.kept {s s' : Stmt} : TracedStmt t s s' →
    Kept t.Own s.bound s.declared s'.bound s'.declared
  | .expr _ => kept_self (by simp [Stmt.bound])
  | .assign hx _ => ⟨rfl, rfl, by simpa [Stmt.bound] using hx⟩
  | .augment hx _ => ⟨rfl, rfl, by simpa [Stmt.bound] using hx⟩
  | .ifElse _ hb ho => by
    simp only [Stmt.bound, Stmt.declared]
    exact hb.kept.append ho.kept
  | .whileLoop _ hb ho => by
    simp only [Stmt.bound, Stmt.declared]
    exact hb.kept.append ho.kept
  | .forLoop hx _ hb ho => by
    simp only [Stmt.bound, Stmt.declared]
    have htarget : Kept t.Own [_] [] [_] [] := kept_self (by simpa using hx)
    exact htarget.append (hb.kept.append ho.kept)
  | .breakLoop => kept_self (by simp [Stmt.bound])
  | .continueLoop => kept_self (by simp [Stmt.bound])
  | .pass => kept_self (by simp [Stmt.bound])
  | .giveBack _ => ⟨rfl, rfl, by simp [Stmt.bound]⟩
  | .define hx _ _ _ => ⟨rfl, rfl, by simpa [Stmt.bound] using hx⟩
  | .global _ => kept_self (by simp [Stmt.bound])
  | .raise _ => ⟨rfl, rfl, by simp [Stmt.bound]⟩
  | .attempt hb hh ho hf => by
    simp only [Stmt.bound, Stmt.declared]
    exact ((hb.kept.append hh.kept).append ho.kept).append hf.kept
  | .choose _ hc => by
    simp only [Stmt.bound, Stmt.declared]
    exact hc.kept
  | .future hx => ⟨rfl, rfl, by simpa [Stmt.bound] using hx⟩
  | .guarded _ hb => by
    simp only [Stmt.bound, Stmt.declared]
    exact hb.kept
  | .foreign => kept_self (by simp [Stmt.bound])

theorem TracedBlock.kept {ss ss' : List Stmt} : TracedBlock t ss ss' → KeptBlock t ss ss'
  | .nil => kept_self (by simp [boundAll])
  | .bare _ hs hss => hs.kept.append hss.kept
  | .counted _ hs hss => (hs.kept.append hss.kept).counter

theorem TracedClause.kept {event : Event} {ss ss' : List Stmt} : TracedClause t event ss ss' → KeptBlock t ss ss'
  | .bare _ hss => hss.kept
  | .counted _ hss => hss.kept.counter

theorem TracedTry.kept {i : NodeId} {ss ss' : List Stmt} : TracedTry t i ss ss' → KeptBlock t ss ss'
  | .bare _ _ hss => hss.kept
  | .counted _ _ hss => by
    unfold KeptBlock
    simp only [boundAll, declaredAll, Stmt.bound, Stmt.declared, List.append_nil]
    exact hss.kept

theorem TracedHandlers.kept {hs hs' : List Handler} : TracedHandlers t hs hs' →
    Kept t.Own (boundHandlers hs) (declaredHandlers hs) (boundHandlers hs') (declaredHandlers hs')
  | .nil => kept_self (by simp [boundHandlers])
  | .cons _ hx hb hhs => by
    simp only [boundHandlers, declaredHandlers]
    exact ((kept_option hx).append hb.kept).append hhs.kept

theorem TracedCases.kept {i : NodeId} {a : Nat} {cs cs' : List Case} : TracedCases t i a cs cs' →
    Kept t.Own (boundCases cs) (declaredCases cs) (boundCases cs') (declaredCases cs')
  | .nil _ => kept_self (by simp [boundCases])
  | .fallback _ => ⟨rfl, rfl, by simp [boundCases]⟩
  | .cons hp _ hb hcs => by
    simp only [boundCases, declaredCases]
    have hpattern : Kept t.Own _ [] _ [] := kept_self hp.not_own
    exact (hpattern.append hb.kept).append hcs.kept
end

theorem TracedBody.kept {event : Event} {ss ss' : List Stmt} : TracedBody t event ss ss' → KeptBlock t ss ss'
  | .clause hss => hss.kept
  | .behind _ _ hss => ⟨hss.kept.bound_eq, hss.kept.declared_eq, hss.kept.free⟩

/-- A function keeps its variables. -/
theorem TracedBody.localNames_eq {event : Event} {ss ss' : List Stmt} (h : TracedBody t event ss ss')
    (params : List String) : localNames params ss' = localNames params ss := by
  rw [localNames, localNames, h.kept.bound_eq, h.kept.declared_eq]

theorem TracedBody.not_own_localNames {event : Event} {ss ss' : List Stmt} (h : TracedBody t event ss ss')
    {params : List String} (hp : ∀ x ∈ params, ¬t.Own x) : ∀ x ∈ localNames params ss, ¬t.Own x := by
  intro x hmem
  rcases List.mem_append.1 (List.mem_filter.1 hmem).1 with hmem | hmem
  · exact hp x hmem
  · exact h.kept.free x hmem

end Names

/-! ## Code without counters -/

/-- Expressions that keep to an allowance, or all of them, are not counted and do not bind the variable of counters. -/
structure Tracing.Spares (t : Tracing) (all : Bool) (a : Allowed) : Prop where
  name : ∀ x, (all || a.name x) = true → ¬t.Own x
  load : ∀ x, (all || a.load x) = true → ¬t.Own x ∨ t.reads
  node : ∀ i, (all || a.node i) = true → t.Silent i

/-- The statements are not counted either. -/
def Tracing.Still (t : Tracing) (all : Bool) (a : Allowed) : Prop :=
  ∀ i, (all || a.node i) = true → t.labels (.started i) none

section Spared

variable {t : Tracing} {all : Bool} {a : Allowed}

theorem Tracing.Spares.names (h : t.Spares all a) {xs : List String} (hxs : (all || xs.all a.name) = true) :
    ∀ x ∈ xs, ¬t.Own x := by
  intro x hx
  refine h.name x ?_
  rw [Bool.or_eq_true] at hxs ⊢
  exact hxs.imp_right fun hall ↦ List.all_eq_true.1 hall x hx

mutual
/-- Code that spares the counters is traced by itself. -/
theorem traced_expr_self (spares : t.Spares all a) : ∀ e : Expr, (all || e.fits a) = true → TracedExpr t e e
  | .const _, _ => .const
  | .name _, h => .name (spares.load _ h)
  | .arith _ left right, h => by
    simp only [Expr.fits, Bool.or_and_distrib_left, Bool.and_eq_true] at h
    exact .arith (traced_expr_self spares left h.1) (traced_expr_self spares right h.2)
  | .unary _ e, h => .unary (traced_expr_self spares e h)
  | .compare first _ rest, h => by
    simp only [Expr.fits, Bool.or_and_distrib_left, Bool.and_eq_true] at h
    exact .compare (traced_expr_self spares first h.1) (traced_exprs_self spares rest h.2)
  | .logic i _ operands, h => by
    simp only [Expr.fits, Bool.or_and_distrib_left, Bool.and_eq_true] at h
    exact .logic (traced_operands_self spares i h.1 0 operands h.2)
  | .ifElse i test body orelse, h => by
    simp only [Expr.fits, Bool.or_and_distrib_left, Bool.and_eq_true] at h
    obtain ⟨⟨⟨hi, ht⟩, hb⟩, ho⟩ := h
    exact .ifElse (traced_expr_self spares test ht)
      (.bare ((spares.node i hi).took 0) (traced_expr_self spares body hb))
      (.bare ((spares.node i hi).took 1) (traced_expr_self spares orelse ho))
  | .call f args, h => by
    simp only [Expr.fits, Bool.or_and_distrib_left, Bool.and_eq_true] at h
    exact .call (traced_expr_self spares f h.1) (traced_exprs_self spares args h.2)
  | .lambda i params defaults body, h => by
    simp only [Expr.fits, Bool.or_and_distrib_left, Bool.and_eq_true] at h
    obtain ⟨⟨⟨hi, hp⟩, hd⟩, hb⟩ := h
    exact .lambda (spares.names hp) (traced_exprs_self spares defaults hd)
      (.bare (spares.node i hi).entered (traced_expr_self spares body hb))
  | .list items, h => .list (traced_exprs_self spares items h)
  | .tuple items, h => .tuple (traced_exprs_self spares items h)
  | .collect item target source conditions, h => by
    simp only [Expr.fits, Bool.or_and_distrib_left, Bool.and_eq_true] at h
    obtain ⟨⟨⟨hx, hi⟩, hs⟩, hc⟩ := h
    exact .collect (spares.name target hx) (traced_expr_self spares item hi) (traced_expr_self spares source hs)
      (traced_exprs_self spares conditions hc)
  | .item e index, h => by
    simp only [Expr.fits, Bool.or_and_distrib_left, Bool.and_eq_true] at h
    exact .item (traced_expr_self spares e h.1) (traced_expr_self spares index h.2)
  | .attribute e _, h => .attribute (traced_expr_self spares e h)
  | .foreign, _ => .foreign

theorem traced_exprs_self (spares : t.Spares all a) :
    ∀ es : List Expr, (all || exprsFit a es) = true → TracedExprs t es es
  | [], _ => .nil
  | e :: es, h => by
    simp only [exprsFit, Bool.or_and_distrib_left, Bool.and_eq_true] at h
    exact .cons (traced_expr_self spares e h.1) (traced_exprs_self spares es h.2)

theorem traced_operands_self (spares : t.Spares all a) (i : NodeId) (hi : (all || a.node i) = true) (n : Nat) :
    ∀ es : List Expr, (all || exprsFit a es) = true → TracedOperands t i n es es
  | [], _ => .nil
  | e :: es, h => by
    simp only [exprsFit, Bool.or_and_distrib_left, Bool.and_eq_true] at h
    exact .cons (.bare ((spares.node i hi).took n) (traced_expr_self spares e h.1))
      (traced_operands_self spares i hi (n + 1) es h.2)
end

theorem traced_option_self (spares : t.Spares all a) :
    ∀ e : Option Expr, (all || optionFits a e) = true → TracedOption t e e
  | none, _ => .none
  | some e, h => .some (traced_expr_self spares e h)

mutual
theorem plain_pattern (spares : t.Spares all a) : ∀ p : Pattern, (all || p.fits a) = true → PlainPattern t p
  | .value e, h => .value (traced_expr_self spares e h)
  | .singleton _, _ => .singleton
  | .any, _ => .any
  | .capture inner x, h => by
    simp only [Pattern.fits, Bool.or_and_distrib_left, Bool.and_eq_true] at h
    exact .capture (spares.name x h.1) (plain_pattern spares inner h.2)
  | .or alternatives, h => .or (plain_patterns spares alternatives h)
  | .foreign, _ => .foreign

theorem plain_patterns (spares : t.Spares all a) :
    ∀ ps : List Pattern, (all || patternsFit a ps) = true → PlainPatterns t ps
  | [], _ => .nil
  | p :: ps, h => by
    simp only [patternsFit, Bool.or_and_distrib_left, Bool.and_eq_true] at h
    exact .cons (plain_pattern spares p h.1) (plain_patterns spares ps h.2)
end

/-- A statement that fits stems from a node that is allowed. -/
theorem Stmt.node_of_fits {s : Stmt} (h : (all || s.fits a) = true) : (all || a.node s.id) = true := by
  cases all with
  | true => rfl
  | false => cases s <;> simp_all [Stmt.fits, Stmt.id]

mutual
/-- Statements that spare the counters are traced by themselves. -/
theorem traced_stmt_self (spares : t.Spares all a) (still : t.Still all a) :
    ∀ s : Stmt, (all || s.fits a) = true → TracedStmt t s s
  | .expr i e, h => by
    simp only [Stmt.fits, Bool.or_and_distrib_left, Bool.and_eq_true] at h
    exact .expr (traced_expr_self spares e h.2)
  | .assign i targets value, h => by
    simp only [Stmt.fits, Bool.or_and_distrib_left, Bool.and_eq_true] at h
    exact .assign (spares.names h.1.2) (traced_expr_self spares value h.2)
  | .augment i target op value, h => by
    simp only [Stmt.fits, Bool.or_and_distrib_left, Bool.and_eq_true] at h
    exact .augment (spares.name target h.1.2) (traced_expr_self spares value h.2)
  | .ifElse i test body orelse, h => by
    simp only [Stmt.fits, Bool.or_and_distrib_left, Bool.and_eq_true] at h
    obtain ⟨⟨⟨hi, ht⟩, hb⟩, ho⟩ := h
    exact .ifElse (traced_expr_self spares test ht)
      (.bare ((spares.node i hi).took 0) (traced_block_self spares still body hb))
      (.bare ((spares.node i hi).took 1) (traced_block_self spares still orelse ho))
  | .whileLoop i test body orelse, h => by
    simp only [Stmt.fits, Bool.or_and_distrib_left, Bool.and_eq_true] at h
    obtain ⟨⟨⟨hi, ht⟩, hb⟩, ho⟩ := h
    exact .whileLoop (traced_expr_self spares test ht)
      (.bare ((spares.node i hi).took 0) (traced_block_self spares still body hb))
      (.bare ((spares.node i hi).took 1) (traced_block_self spares still orelse ho))
  | .forLoop i target source body orelse, h => by
    simp only [Stmt.fits, Bool.or_and_distrib_left, Bool.and_eq_true] at h
    obtain ⟨⟨⟨⟨hi, hx⟩, hs⟩, hb⟩, ho⟩ := h
    exact .forLoop (spares.name target hx) (traced_expr_self spares source hs)
      (.bare ((spares.node i hi).took 0) (traced_block_self spares still body hb))
      (.bare ((spares.node i hi).took 1) (traced_block_self spares still orelse ho))
  | .breakLoop _, _ => .breakLoop
  | .continueLoop _, _ => .continueLoop
  | .pass _, _ => .pass
  | .giveBack i value, h => by
    simp only [Stmt.fits, Bool.or_and_distrib_left, Bool.and_eq_true] at h
    exact .giveBack (traced_option_self spares value h.2)
  | .define i name params defaults body, h => by
    simp only [Stmt.fits, Bool.or_and_distrib_left, Bool.and_eq_true] at h
    obtain ⟨⟨⟨⟨hi, hx⟩, hp⟩, hd⟩, hb⟩ := h
    exact .define (spares.name name hx) (spares.names hp) (traced_exprs_self spares defaults hd)
      (.clause (.bare (spares.node i hi).entered (traced_block_self spares still body hb)))
  | .global i names, h => by
    simp only [Stmt.fits, Bool.or_and_distrib_left, Bool.and_eq_true] at h
    exact .global (spares.names h.2)
  | .raise i exception, h => by
    simp only [Stmt.fits, Bool.or_and_distrib_left, Bool.and_eq_true] at h
    exact .raise (traced_option_self spares exception h.2)
  | .attempt i body handlers orelse final, h => by
    simp only [Stmt.fits, Bool.or_and_distrib_left, Bool.and_eq_true] at h
    obtain ⟨⟨⟨⟨hi, hb⟩, hh⟩, ho⟩, hf⟩ := h
    exact .attempt
      (.bare ((spares.node i hi).took 0) ((spares.node i hi).took 1) (traced_block_self spares still body hb))
      (traced_handlers_self spares still handlers hh) (traced_block_self spares still orelse ho)
      (traced_block_self spares still final hf)
  | .choose i subject cases, h => by
    simp only [Stmt.fits, Bool.or_and_distrib_left, Bool.and_eq_true] at h
    exact .choose (traced_expr_self spares subject h.1.2) (traced_cases_self spares still i h.1.1 0 cases h.2)
  | .future i names, h => by
    simp only [Stmt.fits, Bool.or_and_distrib_left, Bool.and_eq_true] at h
    exact .future (spares.names h.2)
  | .guarded i manager body, h => by
    simp only [Stmt.fits, Bool.or_and_distrib_left, Bool.and_eq_true] at h
    exact .guarded (traced_expr_self spares manager h.1.2) (traced_block_self spares still body h.2)
  | .foreign _, _ => .foreign

theorem traced_block_self (spares : t.Spares all a) (still : t.Still all a) :
    ∀ ss : List Stmt, (all || blockFits a ss) = true → TracedBlock t ss ss
  | [], _ => .nil
  | s :: ss, h => by
    simp only [blockFits, Bool.or_and_distrib_left, Bool.and_eq_true] at h
    exact .bare (still _ (Stmt.node_of_fits h.1)) (traced_stmt_self spares still s h.1)
      (traced_block_self spares still ss h.2)

theorem traced_handlers_self (spares : t.Spares all a) (still : t.Still all a) :
    ∀ hs : List Handler, (all || handlersFit a hs) = true → TracedHandlers t hs hs
  | [], _ => .nil
  | .mk types name body :: hs, h => by
    simp only [handlersFit, Bool.or_and_distrib_left, Bool.and_eq_true] at h
    obtain ⟨⟨⟨ht, hx⟩, hb⟩, hhs⟩ := h
    refine .cons (traced_option_self spares types ht) ?_ (traced_block_self spares still body hb)
      (traced_handlers_self spares still hs hhs)
    rintro x rfl
    exact spares.name x hx

theorem traced_cases_self (spares : t.Spares all a) (still : t.Still all a) (i : NodeId)
    (hi : (all || a.node i) = true) (n : Nat) :
    ∀ cs : List Case, (all || casesFit a cs) = true → TracedCases t i n cs cs
  | [], _ => .nil ((spares.node i hi).took n)
  | .mk pattern guard body :: cs, h => by
    simp only [casesFit, Bool.or_and_distrib_left, Bool.and_eq_true] at h
    obtain ⟨⟨⟨hp, hg⟩, hb⟩, hcs⟩ := h
    exact .cons (plain_pattern spares pattern hp) (traced_option_self spares guard hg)
      (.bare ((spares.node i hi).took n) (traced_block_self spares still body hb))
      (traced_cases_self spares still i hi (n + 1) cs hcs)
end

theorem traced_code_self (spares : t.Spares all a) (still : t.Still all a) {i : NodeId}
    (hi : (all || a.node i) = true) :
    ∀ b : Body, (all || b.fits a) = true → TracedCode t i b b
  | .block ss, h => .block (.clause (.bare (spares.node i hi).entered (traced_block_self spares still ss h)))
  | .expr e, h => .expr (.bare (spares.node i hi).entered (traced_expr_self spares e h))

end Spared

end Coverage.Program
