import Coverage.Proofs.Pass.Site
import Coverage.Proofs.Program.Fragment
import Coverage.Proofs.Syntax.Places

/-!
# How trees are read

`ReadsStmt n s` says that the node `n` is read as the statement `s`, which has no foreign code. The relation
says for each kind of statement and expression what a node of it looks like, so that a proof about programs
and trees can go along it. It holds of a node and what it is read as whenever that fits some allowance, and
does not depend on places.
-/

namespace Coverage.Program

open Syntax

mutual
inductive ReadsExpr : Node → Expr → Prop
  | constant {i p c f l} (hc : Literal.ofConstant? c = some l) :
    ReadsExpr (.mk i (.plain .constant) p [.constant c, f]) (.const l)
  | name {i p x f} : ReadsExpr (.mk i (.plain .name) p [.text x, f]) (.ofName x)
  | binOp {i p l op r o e e'} (hop : arith? op = some o) (hl : ReadsExpr l e) (hr : ReadsExpr r e') :
    ReadsExpr (.mk i (.plain .binOp) p [.child l, .child op, .child r]) (.arith o e e')
  | unaryOp {i p op n o e} (hop : unary? op = some o) (hn : ReadsExpr n e) :
    ReadsExpr (.mk i (.plain .unaryOp) p [.child op, .child n]) (.unary o e)
  | compare {i p first ops rest e rs es} (hops : ops.mapM relation? = some rs) (hf : ReadsExpr first e)
    (hr : ReadsExprs rest es) :
    ReadsExpr (.mk i (.plain .compare) p [.child first, .many ops, .many rest]) (.compare e rs es)
  | boolOp {i p op ns o es} (hop : logic? op = some o) (hns : ReadsExprs ns es) :
    ReadsExpr (.mk i .boolOp p [.child op, .many ns]) (.logic i o es)
  | ifExp {i p test body orelse e₁ e₂ e₃} (ht : ReadsExpr test e₁) (hb : ReadsExpr body e₂)
    (ho : ReadsExpr orelse e₃) :
    ReadsExpr (.mk i .ifExp p [.child test, .child body, .child orelse]) (.ifElse i e₁ e₂ e₃)
  | call {i p f args e es} (hf : ReadsExpr f e) (ha : ReadsExprs args es) :
    ReadsExpr (.mk i (.plain .call) p [.child f, .many args, .many []]) (.call e es)
  | lambda {i p j p' first second defaults body params es e} (hparams : (first ++ second).mapM param? = some params)
    (hd : ReadsExprs defaults es) (hb : ReadsExpr body e) :
    ReadsExpr (.mk i .lambda p
      [.child (.mk j (.plain .arguments) p'
        [.many first, .many second, .none, .many [], .many [], .none, .many defaults]), .child body])
      (.lambda i params es e)
  | list {i p ns f es} (hns : ReadsExprs ns es) : ReadsExpr (.mk i (.plain .list) p [.many ns, f]) (.list es)
  | tuple {i p ns f es} (hns : ReadsExprs ns es) : ReadsExpr (.mk i (.plain .tuple) p [.many ns, f]) (.tuple es)
  | listComp {i p item j p' target source ifs x e₁ e₂ es} (hx : name? target = some x) (hi : ReadsExpr item e₁)
    (hs : ReadsExpr source e₂) (hc : ReadsExprs ifs es) :
    ReadsExpr (.mk i (.plain .listComp) p
      [.child item, .many [.mk j (.plain .comprehension) p' [.child target, .child source, .many ifs, .number 0]]])
      (.collect e₁ x e₂ es)
  | subscript {i p n index f e e'} (hn : ReadsExpr n e) (hi : ReadsExpr index e') :
    ReadsExpr (.mk i (.plain .subscript) p [.child n, .child index, f]) (.item e e')
  | attr {i p n x f e} (hn : ReadsExpr n e) :
    ReadsExpr (.mk i (.plain .attr) p [.child n, .text x, f]) (.attribute e x)

inductive ReadsExprs : List Node → List Expr → Prop
  | nil : ReadsExprs [] []
  | cons {n ns e es} (hn : ReadsExpr n e) (hns : ReadsExprs ns es) : ReadsExprs (n :: ns) (e :: es)
end

inductive ReadsOption : Field → Option Expr → Prop
  | child {n e} (hn : ReadsExpr n e) : ReadsOption (.child n) (some e)
  | other {f} (h : expr? f = none) : ReadsOption f none

mutual
inductive ReadsPattern : Node → Pattern → Prop
  | matchValue {i p n e} (hn : ReadsExpr n e) : ReadsPattern (.mk i (.plain .matchValue) p [.child n]) (.value e)
  | matchNone {i p} : ReadsPattern (.mk i (.plain .matchSingleton) p [.constant .none]) (.singleton .none)
  | matchBool {i p b} : ReadsPattern (.mk i (.plain .matchSingleton) p [.constant (.bool b)]) (.singleton (.bool b))
  | wildcard {i p} : ReadsPattern (.mk i (.plain .matchAs) p [.none, .none]) .any
  | capture {i p x} : ReadsPattern (.mk i (.plain .matchAs) p [.none, .text x]) (.capture .any x)
  | matchAs {i p n x inner} (hn : ReadsPattern n inner) :
    ReadsPattern (.mk i (.plain .matchAs) p [.child n, .text x]) (.capture inner x)
  | matchOr {i p ns ps} (hns : ReadsPatterns ns ps) :
    ReadsPattern (.mk i (.plain .matchOr) p [.many ns]) (.or ps)

inductive ReadsPatterns : List Node → List Pattern → Prop
  | nil : ReadsPatterns [] []
  | cons {n ns p ps} (hn : ReadsPattern n p) (hns : ReadsPatterns ns ps) : ReadsPatterns (n :: ns) (p :: ps)
end

mutual
inductive ReadsStmt : Node → Stmt → Prop
  | exprStmt {i p n e} (hn : ReadsExpr n e) : ReadsStmt (.mk i (.plain .exprStmt) p [.child n]) (.expr i e)
  | assign {i p targets n f xs e} (hxs : targets.mapM name? = some xs) (hn : ReadsExpr n e) :
    ReadsStmt (.mk i (.plain .assign) p [.many targets, .child n, f]) (.assign i xs e)
  | augAssign {i p target op n x o e} (hx : name? target = some x) (hop : arith? op = some o)
    (hn : ReadsExpr n e) :
    ReadsStmt (.mk i (.plain .augAssign) p [.child target, .child op, .child n]) (.augment i x o e)
  | ifStmt {i p test body orelse e ss ss'} (ht : ReadsExpr test e) (hb : ReadsBlock body ss)
    (ho : ReadsBlock orelse ss') :
    ReadsStmt (.mk i .ifStmt p [.child test, .many body, .many orelse]) (.ifElse i e ss ss')
  | whileLoop {i p test body orelse e ss ss'} (ht : ReadsExpr test e) (hb : ReadsBlock body ss)
    (ho : ReadsBlock orelse ss') :
    ReadsStmt (.mk i .whileLoop p [.child test, .many body, .many orelse]) (.whileLoop i e ss ss')
  | forLoop {i p target source body orelse f x e ss ss'} (hx : name? target = some x) (hs : ReadsExpr source e)
    (hb : ReadsBlock body ss) (ho : ReadsBlock orelse ss') :
    ReadsStmt (.mk i (.forLoop false) p [.child target, .child source, .many body, .many orelse, f])
      (.forLoop i x e ss ss')
  | breakStmt {i p fs} : ReadsStmt (.mk i (.plain .breakStmt) p fs) (.breakLoop i)
  | continueStmt {i p fs} : ReadsStmt (.mk i (.plain .continueStmt) p fs) (.continueLoop i)
  | pass {i p fs} : ReadsStmt (.mk i (.plain .pass) p fs) (.pass i)
  | returnStmt {i p f e} (he : ReadsOption f e) : ReadsStmt (.mk i (.plain .returnStmt) p [f]) (.giveBack i e)
  | functionDef {i p name j p' first second defaults body comment params es ss}
    (hparams : (first ++ second).mapM param? = some params) (hd : ReadsExprs defaults es) (hb : ReadsBlock body ss) :
    ReadsStmt (.mk i (.functionDef false) p
      [.text name,
        .child (.mk j (.plain .arguments) p'
          [.many first, .many second, .none, .many [], .many [], .none, .many defaults]),
        .many body, .many [], .none, comment])
      (.define i name params es ss)
  | global {i p xs} : ReadsStmt (.mk i (.plain .global) p [.names xs]) (.global i xs)
  | raise {i p f e} (he : ReadsOption f e) : ReadsStmt (.mk i (.plain .raise) p [f, .none]) (.raise i e)
  | tryStmt {i p body hs orelse final ss hs' ss' ss''} (hb : ReadsBlock body ss) (hh : ReadsHandlers hs hs')
    (ho : ReadsBlock orelse ss') (hf : ReadsBlock final ss'') :
    ReadsStmt (.mk i (.tryStmt false) p [.many body, .many hs, .many orelse, .many final])
      (.attempt i ss hs' ss' ss'')
  | matchStmt {i p subject cs e cs'} (hs : ReadsExpr subject e) (hc : ReadsCases cs cs') :
    ReadsStmt (.mk i .matchStmt p [.child subject, .many cs]) (.choose i e cs')
  | importFrom {i p names xs} (hxs : names.mapM boundName? = some xs) :
    ReadsStmt (.mk i (.plain .importFrom) p [.text "__future__", .many names, .number 0]) (.future i xs)
  | withStmt {i p j p' manager body f e ss} (hm : ReadsExpr manager e) (hb : ReadsBlock body ss) :
    ReadsStmt (.mk i (.plain .withStmt) p
      [.many [.mk j (.plain .withItem) p' [.child manager, .none]], .many body, f]) (.guarded i e ss)

inductive ReadsBlock : List Node → List Stmt → Prop
  | nil : ReadsBlock [] []
  | cons {n ns s ss} (hn : ReadsStmt n s) (hns : ReadsBlock ns ss) : ReadsBlock (n :: ns) (s :: ss)

inductive ReadsHandlers : List Node → List Handler → Prop
  | stop {ns} (h : handlers ns = []) : ReadsHandlers ns []
  | cons {i p types name body ns e x ss hs} (ht : ReadsOption types e) (hx : text? name = x)
    (hb : ReadsBlock body ss) (hns : ReadsHandlers ns hs) :
    ReadsHandlers (.mk i .handler p [types, name, .many body] :: ns) (.mk e x ss :: hs)

inductive ReadsCases : List Node → List Case → Prop
  | stop {ns} (h : cases ns = []) : ReadsCases ns []
  | cons {i p pattern guard body ns p' e ss cs} (hp : ReadsPattern pattern p') (hg : ReadsOption guard e)
    (hb : ReadsBlock body ss) (hns : ReadsCases ns cs) :
    ReadsCases (.mk i .matchCase p [.child pattern, guard, .many body] :: ns) (.mk p' e ss :: cs)
end

/-! ## Reading is a function -/

mutual
/-- Reading an expression is a function of its node. -/
theorem ReadsExpr.eq {n : Node} {e : Expr} : ReadsExpr n e → Expr.ofNode n = e
  | .constant hc => by simp [Expr.ofNode, hc]
  | .name => by simp [Expr.ofNode]
  | .binOp hop hl hr => by simp [Expr.ofNode, hop, hl.eq, hr.eq]
  | .unaryOp hop hn => by simp [Expr.ofNode, hop, hn.eq]
  | .compare hops hf hr => by simp [Expr.ofNode, hops, hf.eq, hr.eq]
  | .boolOp hop hns => by simp [Expr.ofNode, hop, hns.eq]
  | .ifExp ht hb ho => by simp [Expr.ofNode, ht.eq, hb.eq, ho.eq]
  | .call hf ha => by simp [Expr.ofNode, hf.eq, ha.eq]
  | .lambda hparams hd hb => by simp [Expr.ofNode, hparams, hd.eq, hb.eq]
  | .list hns => by simp [Expr.ofNode, hns.eq]
  | .tuple hns => by simp [Expr.ofNode, hns.eq]
  | .listComp hx hi hs hc => by simp [Expr.ofNode, hx, hi.eq, hs.eq, hc.eq]
  | .subscript hn hi => by simp [Expr.ofNode, hn.eq, hi.eq]
  | .attr hn => by simp [Expr.ofNode, hn.eq]

theorem ReadsExprs.eq {ns : List Node} {es : List Expr} : ReadsExprs ns es → exprs ns = es
  | .nil => rfl
  | .cons hn hns => by simp [exprs, hn.eq, hns.eq]
end

theorem ReadsOption.eq {f : Field} {e : Option Expr} : ReadsOption f e → expr? f = e
  | .child hn => by simp [expr?, hn.eq]
  | .other h => h

mutual
theorem ReadsPattern.eq {n : Node} {p : Pattern} : ReadsPattern n p → Pattern.ofNode n = p
  | .matchValue hn => by simp [Pattern.ofNode, hn.eq]
  | .matchNone => by simp [Pattern.ofNode]
  | .matchBool => by simp [Pattern.ofNode]
  | .wildcard => by simp [Pattern.ofNode]
  | .capture => by simp [Pattern.ofNode]
  | .matchAs hn => by simp [Pattern.ofNode, hn.eq]
  | .matchOr hns => by simp [Pattern.ofNode, hns.eq]

theorem ReadsPatterns.eq {ns : List Node} {ps : List Pattern} : ReadsPatterns ns ps → patterns ns = ps
  | .nil => rfl
  | .cons hn hns => by simp [patterns, hn.eq, hns.eq]
end

mutual
theorem ReadsStmt.eq {n : Node} {s : Stmt} : ReadsStmt n s → Stmt.ofNode n = s
  | .exprStmt hn => by simp [Stmt.ofNode, hn.eq]
  | .assign hxs hn => by simp [Stmt.ofNode, hxs, hn.eq]
  | .augAssign hx hop hn => by simp [Stmt.ofNode, hx, hop, hn.eq]
  | .ifStmt ht hb ho => by simp [Stmt.ofNode, ht.eq, hb.eq, ho.eq]
  | .whileLoop ht hb ho => by simp [Stmt.ofNode, ht.eq, hb.eq, ho.eq]
  | .forLoop hx hs hb ho => by simp [Stmt.ofNode, hx, hs.eq, hb.eq, ho.eq]
  | .breakStmt => by simp [Stmt.ofNode]
  | .continueStmt => by simp [Stmt.ofNode]
  | .pass => by simp [Stmt.ofNode]
  | .returnStmt he => by simp [Stmt.ofNode, he.eq]
  | .functionDef hparams hd hb => by simp [Stmt.ofNode, hparams, hd.eq, hb.eq]
  | .global => by simp [Stmt.ofNode]
  | .raise he => by simp [Stmt.ofNode, he.eq]
  | .tryStmt hb hh ho hf => by simp [Stmt.ofNode, hb.eq, hh.eq, ho.eq, hf.eq]
  | .matchStmt hs hc => by simp [Stmt.ofNode, hs.eq, hc.eq]
  | .importFrom hxs => by simp [Stmt.ofNode, hxs]
  | .withStmt hm hb => by simp [Stmt.ofNode, hm.eq, hb.eq]

theorem ReadsBlock.eq {ns : List Node} {ss : List Stmt} : ReadsBlock ns ss → block ns = ss
  | .nil => rfl
  | .cons hn hns => by simp [block, hn.eq, hns.eq]

theorem ReadsHandlers.eq {ns : List Node} {hs : List Handler} : ReadsHandlers ns hs → handlers ns = hs
  | .stop h => h
  | .cons ht hx hb hns => by simp [handlers, ht.eq, hx, hb.eq, hns.eq]

theorem ReadsCases.eq {ns : List Node} {cs : List Case} : ReadsCases ns cs → cases ns = cs
  | .stop h => h
  | .cons hp hg hb hns => by simp [cases, hp.eq, hg.eq, hb.eq, hns.eq]
end

/-- A docstring is read as a constant. -/
theorem ReadsStmt.docstring {n : Node} {s : Stmt} (h : ReadsStmt n s) (hdoc : n.isDocstring = true) :
    ∃ i c, s = .expr i (.const c) := by
  unfold Node.isDocstring at hdoc
  split at hdoc
  next =>
    cases h with
    | exprStmt hn =>
      cases hn
      exact ⟨_, _, rfl⟩
  next => cases hdoc

/-- A statement keeps the identity of its node. -/
theorem ReadsStmt.id_eq {i : NodeId} {c : NodeClass} {p : Place} {fs : List Field} {s : Stmt}
    (h : ReadsStmt (.mk i c p fs) s) : s.id = i := by
  cases h <;> rfl

theorem ReadsStmt.id_mem {n : Node} {s : Stmt} (h : ReadsStmt n s) : s.id ∈ n.ids := by
  cases h <;> simp [Stmt.id, Node.ids]

/-! ## Code that fits is read -/

section Fits

variable {a : Allowed}

mutual
/-- Every expression of the fragment is read by a rule. -/
theorem reads_expr (n : Node) (h : (Expr.ofNode n).fits a = true) : ReadsExpr n (Expr.ofNode n) := by
  unfold Expr.ofNode at h
  split at h
  case h_1 i p c f =>
    split at h
    next l hc => simpa [Expr.ofNode, hc] using ReadsExpr.constant hc
    next => cases h
  case h_2 => simpa [Expr.ofNode] using ReadsExpr.name
  case h_3 i p l op r =>
    split at h
    next o hop =>
      simp only [Expr.fits, Bool.and_eq_true] at h
      simpa [Expr.ofNode, hop] using .binOp hop (reads_expr l h.1) (reads_expr r h.2)
    next => cases h
  case h_4 i p op n =>
    split at h
    next o hop => simpa [Expr.ofNode, hop] using .unaryOp hop (reads_expr n h)
    next => cases h
  case h_5 i p first ops rest =>
    split at h
    next rs hops =>
      simp only [Expr.fits, Bool.and_eq_true] at h
      simpa [Expr.ofNode, hops] using .compare hops (reads_expr first h.1) (reads_exprs rest h.2)
    next => cases h
  case h_6 i p op ns =>
    split at h
    next o hop =>
      simp only [Expr.fits, Bool.and_eq_true] at h
      simpa [Expr.ofNode, hop] using .boolOp hop (reads_exprs ns h.2)
    next => cases h
  case h_7 i p test body orelse =>
    simp only [Expr.fits, Bool.and_eq_true] at h
    obtain ⟨⟨⟨-, ht⟩, hb⟩, ho⟩ := h
    simpa [Expr.ofNode] using .ifExp (reads_expr test ht) (reads_expr body hb) (reads_expr orelse ho)
  case h_8 i p f args =>
    simp only [Expr.fits, Bool.and_eq_true] at h
    simpa [Expr.ofNode] using .call (reads_expr f h.1) (reads_exprs args h.2)
  case h_9 i p j p' first second defaults body =>
    split at h
    next params hparams =>
      simp only [Expr.fits, Bool.and_eq_true] at h
      obtain ⟨⟨-, hd⟩, hb⟩ := h
      simpa [Expr.ofNode, hparams] using .lambda hparams (reads_exprs defaults hd) (reads_expr body hb)
    next => cases h
  case h_10 i p ns f => simpa [Expr.ofNode] using .list (reads_exprs ns h)
  case h_11 i p ns f => simpa [Expr.ofNode] using .tuple (reads_exprs ns h)
  case h_12 i p item j p' target source ifs =>
    split at h
    next x hx =>
      simp only [Expr.fits, Bool.and_eq_true] at h
      obtain ⟨⟨⟨-, hi⟩, hs⟩, hc⟩ := h
      simpa [Expr.ofNode, hx] using .listComp hx (reads_expr item hi) (reads_expr source hs) (reads_exprs ifs hc)
    next => cases h
  case h_13 i p n index f =>
    simp only [Expr.fits, Bool.and_eq_true] at h
    simpa [Expr.ofNode] using .subscript (reads_expr n h.1) (reads_expr index h.2)
  case h_14 i p n x f => simpa [Expr.ofNode] using .attr (reads_expr n h)
  case h_15 => cases h
termination_by sizeOf n

theorem reads_exprs (ns : List Node) (h : exprsFit a (exprs ns) = true) : ReadsExprs ns (exprs ns) := by
  match ns with
  | [] => exact .nil
  | n :: ns =>
    simp only [exprs, exprsFit, Bool.and_eq_true] at h
    exact .cons (reads_expr n h.1) (reads_exprs ns h.2)
termination_by sizeOf ns
end

theorem reads_option (f : Field) (h : optionFits a (expr? f) = true) : ReadsOption f (expr? f) := by
  unfold expr? at h
  split at h
  next n => exact .child (reads_expr n h)
  next hf =>
    have hnone : expr? f = none := by
      rw [expr?]
      exact hf
    rw [hnone]
    exact .other hnone

mutual
theorem reads_pattern (n : Node) (h : (Pattern.ofNode n).fits a = true) : ReadsPattern n (Pattern.ofNode n) := by
  unfold Pattern.ofNode at h
  split at h
  case h_1 i p n => simpa [Pattern.ofNode] using .matchValue (reads_expr n h)
  case h_2 => simpa [Pattern.ofNode] using ReadsPattern.matchNone
  case h_3 => simpa [Pattern.ofNode] using ReadsPattern.matchBool
  case h_4 => simpa [Pattern.ofNode] using ReadsPattern.wildcard
  case h_5 => simpa [Pattern.ofNode] using ReadsPattern.capture
  case h_6 i p n x =>
    simp only [Pattern.fits, Bool.and_eq_true] at h
    simpa [Pattern.ofNode] using .matchAs (reads_pattern n h.2)
  case h_7 i p ns => simpa [Pattern.ofNode] using .matchOr (reads_patterns ns h)
  case h_8 => cases h
termination_by sizeOf n

theorem reads_patterns (ns : List Node) (h : patternsFit a (patterns ns) = true) :
    ReadsPatterns ns (patterns ns) := by
  match ns with
  | [] => exact .nil
  | n :: ns =>
    simp only [patterns, patternsFit, Bool.and_eq_true] at h
    exact .cons (reads_pattern n h.1) (reads_patterns ns h.2)
termination_by sizeOf ns
end

mutual
/-- Every statement of the fragment is read by a rule. -/
theorem reads_stmt (n : Node) (h : (Stmt.ofNode n).fits a = true) : ReadsStmt n (Stmt.ofNode n) := by
  unfold Stmt.ofNode at h
  split at h
  case h_1 => cases h
  case h_2 i p n =>
    simp only [Stmt.fits, Bool.and_eq_true] at h
    simpa [Stmt.ofNode] using .exprStmt (reads_expr n h.2)
  case h_3 i p targets n f =>
    split at h
    next xs hxs =>
      simp only [Stmt.fits, Bool.and_eq_true] at h
      simpa [Stmt.ofNode, hxs] using .assign hxs (reads_expr n h.2)
    next => cases h
  case h_4 i p target op n =>
    split at h
    next x o hx hop =>
      simp only [Stmt.fits, Bool.and_eq_true] at h
      simpa [Stmt.ofNode, hx, hop] using .augAssign hx hop (reads_expr n h.2)
    next => cases h
  case h_5 i p test body orelse =>
    simp only [Stmt.fits, Bool.and_eq_true] at h
    obtain ⟨⟨⟨-, ht⟩, hb⟩, ho⟩ := h
    simpa [Stmt.ofNode] using .ifStmt (reads_expr test ht) (reads_block body hb) (reads_block orelse ho)
  case h_6 i p test body orelse =>
    simp only [Stmt.fits, Bool.and_eq_true] at h
    obtain ⟨⟨⟨-, ht⟩, hb⟩, ho⟩ := h
    simpa [Stmt.ofNode] using .whileLoop (reads_expr test ht) (reads_block body hb) (reads_block orelse ho)
  case h_7 i p target source body orelse f =>
    split at h
    next x hx =>
      simp only [Stmt.fits, Bool.and_eq_true] at h
      obtain ⟨⟨⟨-, hs⟩, hb⟩, ho⟩ := h
      simpa [Stmt.ofNode, hx] using
        .forLoop hx (reads_expr source hs) (reads_block body hb) (reads_block orelse ho)
    next => cases h
  case h_8 => simpa [Stmt.ofNode] using ReadsStmt.breakStmt
  case h_9 => simpa [Stmt.ofNode] using ReadsStmt.continueStmt
  case h_10 => simpa [Stmt.ofNode] using ReadsStmt.pass
  case h_11 i p f =>
    simp only [Stmt.fits, Bool.and_eq_true] at h
    simpa [Stmt.ofNode] using .returnStmt (reads_option f h.2)
  case h_12 i p name j p' first second defaults body comment =>
    split at h
    next params hparams =>
      simp only [Stmt.fits, Bool.and_eq_true] at h
      obtain ⟨⟨-, hd⟩, hb⟩ := h
      simpa [Stmt.ofNode, hparams] using .functionDef hparams (reads_exprs defaults hd) (reads_block body hb)
    next => cases h
  case h_13 => simpa [Stmt.ofNode] using ReadsStmt.global
  case h_14 i p f =>
    simp only [Stmt.fits, Bool.and_eq_true] at h
    simpa [Stmt.ofNode] using .raise (reads_option f h.2)
  case h_15 i p body hs orelse final =>
    simp only [Stmt.fits, Bool.and_eq_true] at h
    obtain ⟨⟨⟨⟨-, hb⟩, hh⟩, ho⟩, hf⟩ := h
    simpa [Stmt.ofNode] using
      .tryStmt (reads_block body hb) (reads_handlers hs hh) (reads_block orelse ho) (reads_block final hf)
  case h_16 i p subject cs =>
    simp only [Stmt.fits, Bool.and_eq_true] at h
    simpa [Stmt.ofNode] using .matchStmt (reads_expr subject h.1.2) (reads_cases cs h.2)
  case h_17 i p names =>
    split at h
    next xs hxs => simpa [Stmt.ofNode, hxs] using .importFrom hxs
    next => cases h
  case h_18 i p j p' manager body f =>
    simp only [Stmt.fits, Bool.and_eq_true] at h
    simpa [Stmt.ofNode] using .withStmt (reads_expr manager h.1.2) (reads_block body h.2)
  case h_19 => cases h
termination_by sizeOf n

theorem reads_block (ns : List Node) (h : blockFits a (block ns) = true) : ReadsBlock ns (block ns) := by
  match ns with
  | [] => exact .nil
  | n :: ns =>
    simp only [block, blockFits, Bool.and_eq_true] at h
    exact .cons (reads_stmt n h.1) (reads_block ns h.2)
termination_by sizeOf ns

theorem reads_handlers (ns : List Node) (h : handlersFit a (handlers ns) = true) :
    ReadsHandlers ns (handlers ns) := by
  unfold handlers at h
  split at h
  next i p types name body ns =>
    simp only [handlersFit, Bool.and_eq_true] at h
    obtain ⟨⟨⟨ht, -⟩, hb⟩, hns⟩ := h
    simpa [handlers] using .cons (reads_option types ht) rfl (reads_block body hb) (reads_handlers ns hns)
  next hns =>
    have hstop : handlers ns = [] := by
      rw [handlers]
      exact hns
    rw [hstop]
    exact .stop hstop
termination_by sizeOf ns

theorem reads_cases (ns : List Node) (h : casesFit a (cases ns) = true) : ReadsCases ns (cases ns) := by
  unfold cases at h
  split at h
  next i p pattern guard body ns =>
    simp only [casesFit, Bool.and_eq_true] at h
    obtain ⟨⟨⟨hp, hg⟩, hb⟩, hns⟩ := h
    simpa [cases] using
      .cons (reads_pattern pattern hp) (reads_option guard hg) (reads_block body hb) (reads_cases ns hns)
  next hns =>
    have hstop : cases ns = [] := by
      rw [cases]
      exact hns
    rw [hstop]
    exact .stop hstop
termination_by sizeOf ns
end

end Fits

/-! ## Leaves -/

section Leaves

variable (i i' : NodeId) (c : NodeClass) (p p' : Place) (fs fs' : List Field)

theorem arith?_mk : arith? (.mk i c p fs) = arith? (.mk i' c p' fs') := by
  cases c with
  | plain k => cases k <;> rfl
  | _ => rfl

theorem relation?_mk : relation? (.mk i c p fs) = relation? (.mk i' c p' fs') := by
  cases c with
  | plain k => cases k <;> rfl
  | _ => rfl

theorem unary?_mk : unary? (.mk i c p fs) = unary? (.mk i' c p' fs') := by
  cases c with
  | plain k => cases k <;> rfl
  | _ => rfl

theorem logic?_mk : logic? (.mk i c p fs) = logic? (.mk i' c p' fs') := by
  cases c with
  | plain k => cases k <;> rfl
  | _ => rfl

end Leaves

/-! ## Places do not matter -/

/-- What a node is read as does not depend on places, where it can be read. -/
def Unmoved {β : Type} (f : Node → Option β) : Prop :=
  ∀ n b, f n = some b → ∀ outer, f (n.fillPlaces outer) = some b

theorem unmoved_of_mk {β : Type} {f : Node → Option β} (hgap : f .gap = none)
    (h : ∀ i c p p' fs fs', f (.mk i c p fs) = f (.mk i c p' fs')) : Unmoved f := by
  intro n b hn outer
  cases n with
  | gap => simp [hgap] at hn
  | mk i c p fs =>
    rw [Node.fillPlaces_mk, ← hn]
    exact h ..

theorem unmoved_arith? : Unmoved arith? := unmoved_of_mk rfl fun _ _ _ _ _ _ ↦ arith?_mk ..

theorem unmoved_relation? : Unmoved relation? := unmoved_of_mk rfl fun _ _ _ _ _ _ ↦ relation?_mk ..

theorem unmoved_unary? : Unmoved unary? := unmoved_of_mk rfl fun _ _ _ _ _ _ ↦ unary?_mk ..

theorem unmoved_logic? : Unmoved logic? := unmoved_of_mk rfl fun _ _ _ _ _ _ ↦ logic?_mk ..

theorem unmoved_name? : Unmoved name? := by
  intro n x h outer
  unfold name? at h
  split at h
  · cases h
    simp [name?]
  · cases h

theorem unmoved_param? : Unmoved param? := by
  intro n x h outer
  unfold param? at h
  split at h
  · cases h
    simp [param?]
  · cases h

theorem unmoved_boundName? : Unmoved boundName? := by
  intro n x h outer
  unfold boundName? at h
  split at h
  · cases h
    simp [boundName?]
  · cases h
    simp [boundName?]
  · cases h

theorem Unmoved.mapM {β : Type} {f : Node → Option β} (hf : Unmoved f) {ns : List Node} {bs : List β}
    (h : ns.mapM f = some bs) (outer : Place) : (fillNodes outer ns).mapM f = some bs := by
  induction ns generalizing bs with
  | nil => simpa using h
  | cons n ns ih =>
    simp only [List.mapM_cons, Option.bind_eq_bind, Option.bind_eq_some_iff, Option.pure_def] at h
    obtain ⟨b, hb, rest, hrest, h⟩ := h
    simp [hf n b hb, ih hrest, h]

mutual
/-- Filling in places does not change what is read. -/
theorem ReadsExpr.fill {n : Node} {e : Expr} (outer : Place) : ReadsExpr n e → ReadsExpr (n.fillPlaces outer) e
  | .constant hc => by simpa using .constant hc
  | .name => by simpa using .name
  | .binOp hop hl hr => by simpa using .binOp (unmoved_arith? _ _ hop _) (hl.fill _) (hr.fill _)
  | .unaryOp hop hn => by simpa using .unaryOp (unmoved_unary? _ _ hop _) (hn.fill _)
  | .compare hops hf hr => by simpa using .compare (unmoved_relation?.mapM hops _) (hf.fill _) (hr.fill _)
  | .boolOp hop hns => by simpa using .boolOp (unmoved_logic? _ _ hop _) (hns.fill _)
  | .ifExp ht hb ho => by simpa using .ifExp (ht.fill _) (hb.fill _) (ho.fill _)
  | .call hf ha => by simpa using .call (hf.fill _) (ha.fill _)
  | .lambda hparams hd hb => by
    have hparams := unmoved_param?.mapM hparams
    simp only [fillNodes_append] at hparams
    simpa using .lambda (hparams _) (hd.fill _) (hb.fill _)
  | .list hns => by simpa using .list (hns.fill _)
  | .tuple hns => by simpa using .tuple (hns.fill _)
  | .listComp hx hi hs hc => by
    simpa using .listComp (unmoved_name? _ _ hx _) (hi.fill _) (hs.fill _) (hc.fill _)
  | .subscript hn hi => by simpa using .subscript (hn.fill _) (hi.fill _)
  | .attr hn => by simpa using .attr (hn.fill _)

theorem ReadsExprs.fill {ns : List Node} {es : List Expr} (outer : Place) :
    ReadsExprs ns es → ReadsExprs (fillNodes outer ns) es
  | .nil => by simpa using .nil
  | .cons hn hns => by simpa using .cons (hn.fill _) (hns.fill _)
end

theorem ReadsOption.fill {f : Field} {e : Option Expr} (outer : Place) :
    ReadsOption f e → ReadsOption (f.fillPlaces outer) e
  | .child hn => .child (hn.fill outer)
  | .other h => by
    refine .other ?_
    cases f with
    | child n => simp [expr?] at h
    | _ => rfl

mutual
theorem ReadsPattern.fill {n : Node} {p : Pattern} (outer : Place) :
    ReadsPattern n p → ReadsPattern (n.fillPlaces outer) p
  | .matchValue hn => by simpa using .matchValue (hn.fill _)
  | .matchNone => by simpa using .matchNone
  | .matchBool => by simpa using .matchBool
  | .wildcard => by simpa using .wildcard
  | .capture => by simpa using .capture
  | .matchAs hn => by simpa using .matchAs (hn.fill _)
  | .matchOr hns => by simpa using .matchOr (hns.fill _)

theorem ReadsPatterns.fill {ns : List Node} {ps : List Pattern} (outer : Place) :
    ReadsPatterns ns ps → ReadsPatterns (fillNodes outer ns) ps
  | .nil => by simpa using .nil
  | .cons hn hns => by simpa using .cons (hn.fill _) (hns.fill _)
end

@[simp]
theorem text?_fillPlaces (f : Field) (outer : Place) : text? (f.fillPlaces outer) = text? f := by
  cases f <;> rfl

theorem handlers_fillNodes_eq_nil {ns : List Node} (h : handlers ns = []) (outer : Place) :
    handlers (fillNodes outer ns) = [] := by
  rw [handlers]
  intro i p types name body rest heq
  simp only [fillNodes_eq_cons, fillPlaces_eq_mk, fillFields_eq_cons, fillPlaces_eq_many, fillFields_eq_nil] at heq
  obtain ⟨n, rest, rfl, ⟨p, fs, rfl, -, f, gs, rfl, -, f', gs', rfl, -, f'', gs'', rfl, ⟨body, rfl, -⟩, rfl⟩, -⟩ := heq
  simp [handlers] at h

theorem cases_fillNodes_eq_nil {ns : List Node} (h : cases ns = []) (outer : Place) :
    cases (fillNodes outer ns) = [] := by
  rw [cases]
  intro i p pattern guard body rest heq
  simp only [fillNodes_eq_cons, fillPlaces_eq_mk, fillFields_eq_cons, fillPlaces_eq_many, fillPlaces_eq_child,
    fillFields_eq_nil] at heq
  obtain ⟨n, rest, rfl, ⟨p, fs, rfl, -, f, gs, rfl, ⟨pattern, rfl, -⟩, f', gs', rfl, -, f'', gs'', rfl, ⟨body, rfl, -⟩,
    rfl⟩, -⟩ := heq
  simp [cases] at h

mutual
theorem ReadsStmt.fill {n : Node} {s : Stmt} (outer : Place) : ReadsStmt n s → ReadsStmt (n.fillPlaces outer) s
  | .exprStmt hn => by simpa using .exprStmt (hn.fill _)
  | .assign hxs hn => by simpa using .assign (unmoved_name?.mapM hxs _) (hn.fill _)
  | .augAssign hx hop hn => by
    simpa using .augAssign (unmoved_name? _ _ hx _) (unmoved_arith? _ _ hop _) (hn.fill _)
  | .ifStmt ht hb ho => by simpa using .ifStmt (ht.fill _) (hb.fill _) (ho.fill _)
  | .whileLoop ht hb ho => by simpa using .whileLoop (ht.fill _) (hb.fill _) (ho.fill _)
  | .forLoop hx hs hb ho => by
    simpa using .forLoop (unmoved_name? _ _ hx _) (hs.fill _) (hb.fill _) (ho.fill _)
  | .breakStmt => by simpa using .breakStmt
  | .continueStmt => by simpa using .continueStmt
  | .pass => by simpa using .pass
  | .returnStmt he => by simpa using .returnStmt (he.fill _)
  | .functionDef hparams hd hb => by
    have hparams := unmoved_param?.mapM hparams
    simp only [fillNodes_append] at hparams
    simpa using .functionDef (hparams _) (hd.fill _) (hb.fill _)
  | .global => by simpa using .global
  | .raise he => by simpa using .raise (he.fill _)
  | .tryStmt hb hh ho hf => by simpa using .tryStmt (hb.fill _) (hh.fill _) (ho.fill _) (hf.fill _)
  | .matchStmt hs hc => by simpa using .matchStmt (hs.fill _) (hc.fill _)
  | .importFrom hxs => by simpa using .importFrom (unmoved_boundName?.mapM hxs _)
  | .withStmt hm hb => by simpa using .withStmt (hm.fill _) (hb.fill _)

theorem ReadsBlock.fill {ns : List Node} {ss : List Stmt} (outer : Place) :
    ReadsBlock ns ss → ReadsBlock (fillNodes outer ns) ss
  | .nil => by simpa using .nil
  | .cons hn hns => by simpa using .cons (hn.fill _) (hns.fill _)

theorem ReadsHandlers.fill {ns : List Node} {hs : List Handler} (outer : Place) :
    ReadsHandlers ns hs → ReadsHandlers (fillNodes outer ns) hs
  | .stop h => .stop (handlers_fillNodes_eq_nil h outer)
  | .cons ht hx hb hns => by
    simpa using .cons (ht.fill _) ((text?_fillPlaces _ _).trans hx) (hb.fill _) (hns.fill _)

theorem ReadsCases.fill {ns : List Node} {cs : List Case} (outer : Place) :
    ReadsCases ns cs → ReadsCases (fillNodes outer ns) cs
  | .stop h => .stop (cases_fillNodes_eq_nil h outer)
  | .cons hp hg hb hns => by simpa using .cons (hp.fill _) (hg.fill _) (hb.fill _) (hns.fill _)
end

/-! ## Code stems from the nodes of its tree -/

/-- All identities of a list are allowed. -/
def Covers (q : NodeId → Bool) (ids : List NodeId) : Prop := ∀ i ∈ ids, q i = true

section Covers

variable {q : NodeId → Bool} {i : NodeId} {c : NodeClass} {p : Place} {fs : List Field}

theorem Covers.field (h : Covers q (Node.mk i c p fs).ids) {f : Field} (hf : f ∈ fs) : Covers q f.ids := by
  intro j hj
  refine h j (List.mem_cons_of_mem _ ?_)
  clear h
  induction fs with
  | nil => cases hf
  | cons g gs ih =>
    rw [fieldsIds_cons, List.mem_append]
    rcases List.mem_cons.1 hf with rfl | hf
    · exact .inl hj
    · exact .inr (ih hf)

theorem Covers.child (h : Covers q (Node.mk i c p fs).ids) {n : Node} (hn : .child n ∈ fs) : Covers q n.ids := by
  simpa using h.field hn

theorem Covers.many (h : Covers q (Node.mk i c p fs).ids) {ns : List Node} (hns : .many ns ∈ fs) :
    Covers q (nodesIds ns) := by
  simpa using h.field hns

theorem Covers.self (h : Covers q (Node.mk i c p fs).ids) : q i = true := h i (by simp [Node.ids])

theorem Covers.head {n : Node} {ns : List Node} (h : Covers q (nodesIds (n :: ns))) : Covers q n.ids :=
  fun j hj ↦ h j (by simp [nodesIds, hj])

theorem Covers.tail {n : Node} {ns : List Node} (h : Covers q (nodesIds (n :: ns))) : Covers q (nodesIds ns) :=
  fun j hj ↦ h j (by simp [nodesIds, hj])

end Covers

section Within

variable {a : Allowed} {q : NodeId → Bool}

mutual
/-- What is read has identities of its node only. -/
theorem ReadsExpr.fits {n : Node} {e : Expr} :
    ReadsExpr n e → Covers q n.ids → e.fits a = true → e.fits { a with node := q } = true
  | .constant _, _, _ => rfl
  | .name, _, ha => by
    unfold Expr.ofName at ha ⊢
    split <;> simp_all [Expr.fits]
  | .binOp _ hl hr, hq, ha => by
    simp only [Expr.fits, Bool.and_eq_true] at ha ⊢
    exact ⟨hl.fits (hq.child (by simp)) ha.1, hr.fits (hq.child (by simp)) ha.2⟩
  | .unaryOp _ hn, hq, ha => hn.fits (hq.child (by simp)) ha
  | .compare _ hf hr, hq, ha => by
    simp only [Expr.fits, Bool.and_eq_true] at ha ⊢
    exact ⟨hf.fits (hq.child (by simp)) ha.1, hr.fits (hq.many (by simp)) ha.2⟩
  | .boolOp _ hns, hq, ha => by
    simp only [Expr.fits, Bool.and_eq_true] at ha ⊢
    exact ⟨hq.self, hns.fits (hq.many (by simp)) ha.2⟩
  | .ifExp ht hb ho, hq, ha => by
    simp only [Expr.fits, Bool.and_eq_true] at ha ⊢
    exact ⟨⟨⟨hq.self, ht.fits (hq.child (by simp)) ha.1.1.2⟩, hb.fits (hq.child (by simp)) ha.1.2⟩,
      ho.fits (hq.child (by simp)) ha.2⟩
  | .call hf hargs, hq, ha => by
    simp only [Expr.fits, Bool.and_eq_true] at ha ⊢
    exact ⟨hf.fits (hq.child (by simp)) ha.1, hargs.fits (hq.many (by simp)) ha.2⟩
  | .lambda _ hd hb, hq, ha => by
    simp only [Expr.fits, Bool.and_eq_true] at ha ⊢
    have hargs := hq.child (List.mem_cons_self ..)
    exact ⟨⟨⟨hq.self, ha.1.1.2⟩, hd.fits (hargs.many (by simp)) ha.1.2⟩, hb.fits (hq.child (by simp)) ha.2⟩
  | .list hns, hq, ha => hns.fits (hq.many (by simp)) ha
  | .tuple hns, hq, ha => hns.fits (hq.many (by simp)) ha
  | .listComp _ hi hs hc, hq, ha => by
    simp only [Expr.fits, Bool.and_eq_true] at ha ⊢
    have hround := Covers.head (hq.many (List.mem_cons_of_mem _ (List.mem_cons_self ..)))
    exact ⟨⟨⟨ha.1.1.1, hi.fits (hq.child (by simp)) ha.1.1.2⟩, hs.fits (hround.child (by simp)) ha.1.2⟩,
      hc.fits (hround.many (by simp)) ha.2⟩
  | .subscript hn hi, hq, ha => by
    simp only [Expr.fits, Bool.and_eq_true] at ha ⊢
    exact ⟨hn.fits (hq.child (by simp)) ha.1, hi.fits (hq.child (by simp)) ha.2⟩
  | .attr hn, hq, ha => hn.fits (hq.child (by simp)) ha

theorem ReadsExprs.fits {ns : List Node} {es : List Expr} :
    ReadsExprs ns es → Covers q (nodesIds ns) → exprsFit a es = true → exprsFit { a with node := q } es = true
  | .nil, _, _ => rfl
  | .cons hn hns, hq, ha => by
    simp only [exprsFit, Bool.and_eq_true] at ha ⊢
    exact ⟨hn.fits hq.head ha.1, hns.fits hq.tail ha.2⟩
end

theorem ReadsOption.fits {f : Field} {e : Option Expr} :
    ReadsOption f e → Covers q f.ids → optionFits a e = true → optionFits { a with node := q } e = true
  | .child hn, hq, ha => hn.fits (by simpa using hq) ha
  | .other _, _, _ => rfl

mutual
theorem ReadsPattern.fits {n : Node} {p : Pattern} :
    ReadsPattern n p → Covers q n.ids → p.fits a = true → p.fits { a with node := q } = true
  | .matchValue hn, hq, ha => hn.fits (hq.child (by simp)) ha
  | .matchNone, _, _ => rfl
  | .matchBool, _, _ => rfl
  | .wildcard, _, _ => rfl
  | .capture, _, ha => ha
  | .matchAs hn, hq, ha => by
    simp only [Pattern.fits, Bool.and_eq_true] at ha ⊢
    exact ⟨ha.1, hn.fits (hq.child (by simp)) ha.2⟩
  | .matchOr hns, hq, ha => hns.fits (hq.many (by simp)) ha

theorem ReadsPatterns.fits {ns : List Node} {ps : List Pattern} :
    ReadsPatterns ns ps → Covers q (nodesIds ns) → patternsFit a ps = true →
      patternsFit { a with node := q } ps = true
  | .nil, _, _ => rfl
  | .cons hn hns, hq, ha => by
    simp only [patternsFit, Bool.and_eq_true] at ha ⊢
    exact ⟨hn.fits hq.head ha.1, hns.fits hq.tail ha.2⟩
end

mutual
theorem ReadsStmt.fits {n : Node} {s : Stmt} :
    ReadsStmt n s → Covers q n.ids → s.fits a = true → s.fits { a with node := q } = true
  | .exprStmt hn, hq, ha => by
    simp only [Stmt.fits, Bool.and_eq_true] at ha ⊢
    exact ⟨hq.self, hn.fits (hq.child (by simp)) ha.2⟩
  | .assign _ hn, hq, ha => by
    simp only [Stmt.fits, Bool.and_eq_true] at ha ⊢
    exact ⟨⟨hq.self, ha.1.2⟩, hn.fits (hq.child (by simp)) ha.2⟩
  | .augAssign _ _ hn, hq, ha => by
    simp only [Stmt.fits, Bool.and_eq_true] at ha ⊢
    exact ⟨⟨hq.self, ha.1.2⟩, hn.fits (hq.child (by simp)) ha.2⟩
  | .ifStmt ht hb ho, hq, ha => by
    simp only [Stmt.fits, Bool.and_eq_true] at ha ⊢
    exact ⟨⟨⟨hq.self, ht.fits (hq.child (by simp)) ha.1.1.2⟩, hb.fits (hq.many (by simp)) ha.1.2⟩,
      ho.fits (hq.many (by simp)) ha.2⟩
  | .whileLoop ht hb ho, hq, ha => by
    simp only [Stmt.fits, Bool.and_eq_true] at ha ⊢
    exact ⟨⟨⟨hq.self, ht.fits (hq.child (by simp)) ha.1.1.2⟩, hb.fits (hq.many (by simp)) ha.1.2⟩,
      ho.fits (hq.many (by simp)) ha.2⟩
  | .forLoop _ hs hb ho, hq, ha => by
    simp only [Stmt.fits, Bool.and_eq_true] at ha ⊢
    obtain ⟨⟨⟨⟨-, hx⟩, hs'⟩, hb'⟩, ho'⟩ := ha
    exact ⟨⟨⟨⟨hq.self, hx⟩, hs.fits (hq.child (by simp)) hs'⟩, hb.fits (hq.many (by simp)) hb'⟩,
      ho.fits (hq.many (by simp)) ho'⟩
  | .breakStmt, hq, _ => hq.self
  | .continueStmt, hq, _ => hq.self
  | .pass, hq, _ => hq.self
  | .returnStmt he, hq, ha => by
    simp only [Stmt.fits, Bool.and_eq_true] at ha ⊢
    exact ⟨hq.self, he.fits (hq.field (by simp)) ha.2⟩
  | .functionDef _ hd hb, hq, ha => by
    simp only [Stmt.fits, Bool.and_eq_true] at ha ⊢
    obtain ⟨⟨⟨⟨-, hx⟩, hp⟩, hd'⟩, hb'⟩ := ha
    have hargs := hq.child (List.mem_cons_of_mem _ (List.mem_cons_self ..))
    exact ⟨⟨⟨⟨hq.self, hx⟩, hp⟩, hd.fits (hargs.many (by simp)) hd'⟩, hb.fits (hq.many (by simp)) hb'⟩
  | .global, hq, ha => by
    simp only [Stmt.fits, Bool.and_eq_true] at ha ⊢
    exact ⟨hq.self, ha.2⟩
  | .raise he, hq, ha => by
    simp only [Stmt.fits, Bool.and_eq_true] at ha ⊢
    exact ⟨hq.self, he.fits (hq.field (by simp)) ha.2⟩
  | .tryStmt hb hh ho hf, hq, ha => by
    simp only [Stmt.fits, Bool.and_eq_true] at ha ⊢
    obtain ⟨⟨⟨⟨-, hb'⟩, hh'⟩, ho'⟩, hf'⟩ := ha
    exact ⟨⟨⟨⟨hq.self, hb.fits (hq.many (by simp)) hb'⟩, hh.fits (hq.many (by simp)) hh'⟩,
      ho.fits (hq.many (by simp)) ho'⟩, hf.fits (hq.many (by simp)) hf'⟩
  | .matchStmt hs hc, hq, ha => by
    simp only [Stmt.fits, Bool.and_eq_true] at ha ⊢
    exact ⟨⟨hq.self, hs.fits (hq.child (by simp)) ha.1.2⟩, hc.fits (hq.many (by simp)) ha.2⟩
  | .importFrom _, hq, ha => by
    simp only [Stmt.fits, Bool.and_eq_true] at ha ⊢
    exact ⟨hq.self, ha.2⟩
  | .withStmt hm hb, hq, ha => by
    simp only [Stmt.fits, Bool.and_eq_true] at ha ⊢
    have hitem := Covers.head (hq.many (List.mem_cons_self ..))
    exact ⟨⟨hq.self, hm.fits (hitem.child (by simp)) ha.1.2⟩, hb.fits (hq.many (by simp)) ha.2⟩

theorem ReadsBlock.fits {ns : List Node} {ss : List Stmt} :
    ReadsBlock ns ss → Covers q (nodesIds ns) → blockFits a ss = true → blockFits { a with node := q } ss = true
  | .nil, _, _ => rfl
  | .cons hn hns, hq, ha => by
    simp only [blockFits, Bool.and_eq_true] at ha ⊢
    exact ⟨hn.fits hq.head ha.1, hns.fits hq.tail ha.2⟩

theorem ReadsHandlers.fits {ns : List Node} {hs : List Handler} :
    ReadsHandlers ns hs → Covers q (nodesIds ns) → handlersFit a hs = true →
      handlersFit { a with node := q } hs = true
  | .stop _, _, _ => rfl
  | .cons ht _ hb hns, hq, ha => by
    simp only [handlersFit, Bool.and_eq_true] at ha ⊢
    obtain ⟨⟨⟨ht', hx⟩, hb'⟩, hns'⟩ := ha
    exact ⟨⟨⟨ht.fits (hq.head.field (by simp)) ht', hx⟩, hb.fits (hq.head.many (by simp)) hb'⟩,
      hns.fits hq.tail hns'⟩

theorem ReadsCases.fits {ns : List Node} {cs : List Case} :
    ReadsCases ns cs → Covers q (nodesIds ns) → casesFit a cs = true → casesFit { a with node := q } cs = true
  | .stop _, _, _ => rfl
  | .cons hp hg hb hns, hq, ha => by
    simp only [casesFit, Bool.and_eq_true] at ha ⊢
    obtain ⟨⟨⟨hp', hg'⟩, hb'⟩, hns'⟩ := ha
    exact ⟨⟨⟨hp.fits (hq.head.child (by simp)) hp', hg.fits (hq.head.field (by simp)) hg'⟩,
      hb.fits (hq.head.many (by simp)) hb'⟩, hns.fits hq.tail hns'⟩
end

end Within

end Coverage.Program
