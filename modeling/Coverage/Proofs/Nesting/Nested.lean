import Mathlib.Data.Prod.Lex
import Coverage.Proofs.Registration
import Coverage.Proofs.Check.Walkable
import Coverage.Proofs.Syntax.Nodes

/-!
# Properly nested trees

The places that a parser gives to the nodes of a tree are nested: a node covers the nodes below it, and nodes of which
neither is above the other are apart. Only the decorators of a definition are outside of it. A compound statement is
longer than any of its children, since it starts with a keyword; so is a lambda.
-/

namespace Coverage

namespace Span

variable {s t u : Span}

/-- Where a span starts. The line counts first, then the column. -/
def start (s : Span) : ℤ ×ₗ ℤ := toLex (s.startLine, s.startColumn)

def stop (s : Span) : ℤ ×ₗ ℤ := toLex (s.endLine, s.endColumn)

/-- One span ends before the other starts. -/
def Apart (s t : Span) : Prop := s.stop ≤ t.start ∨ t.stop ≤ s.start

/-- The second span lies within the first. -/
def Covers (s t : Span) : Prop := s.start ≤ t.start ∧ t.stop ≤ s.stop

instance (s t : Span) : Decidable (s.Apart t) := inferInstanceAs (Decidable (_ ∨ _))

instance (s t : Span) : Decidable (s.Covers t) := inferInstanceAs (Decidable (_ ∧ _))

@[simp]
theorem start_join (s t : Span) : (s.join t).start = s.start := rfl

@[simp]
theorem stop_join (s t : Span) : (s.join t).stop = t.stop := rfl

@[simp]
theorem join_self (s : Span) : s.join s = s := rfl

theorem eq_of_ends (hstart : s.start = t.start) (hstop : s.stop = t.stop) : s = t := by
  obtain ⟨l, c, el, ec⟩ := s
  obtain ⟨l', c', el', ec'⟩ := t
  obtain ⟨rfl, rfl⟩ := Prod.mk.inj (toLex_inj.1 hstart)
  obtain ⟨rfl, rfl⟩ := Prod.mk.inj (toLex_inj.1 hstop)
  rfl

theorem Apart.symm (h : s.Apart t) : t.Apart s := Or.symm h

theorem Covers.refl (s : Span) : s.Covers s := ⟨le_rfl, le_rfl⟩

theorem Covers.antisymm (h : s.Covers t) (h' : t.Covers s) : s = t :=
  eq_of_ends (le_antisymm h.1 h'.1) (le_antisymm h'.2 h.2)

/-- What is apart from a span is apart from all within it. -/
theorem Apart.of_covers (h : s.Apart t) (hu : t.Covers u) : s.Apart u := by
  rcases h with h | h
  · exact .inl (h.trans hu.1)
  · exact .inr (hu.2.trans h)

/-- Spans that are apart do not start at one place. -/
theorem Apart.start_ne (h : s.Apart t) (hs : s.start < s.stop) (ht : t.start < t.stop) : s.start ≠ t.start := by
  intro heq
  rcases h with h | h
  · exact absurd (heq ▸ hs) (not_lt.2 h)
  · exact absurd (heq ▸ ht) (not_lt.2 h)

/-- A span that leaves out a part of another is not the other one. -/
theorem ne_of_apart (hcovers : s.Covers u) (hu : u.start < u.stop) (hapart : t.Apart u) : t ≠ s := by
  rintro rfl
  rcases hapart with h | h
  · exact absurd (hcovers.2.trans h) (not_le.2 hu)
  · exact absurd (h.trans hcovers.1) (not_le.2 hu)

/-- A span that starts with one that another covers is not apart from that other one. -/
theorem not_apart_of_start (hcovers : s.Covers u) (hu : u.start < u.stop) (ht : t.start < t.stop)
    (hstart : t.start = u.start) : ¬t.Apart s := by
  rintro (h | h)
  · exact absurd (ht.trans_le (h.trans hcovers.1)) (by simp [hstart])
  · exact absurd (hu.trans_le (hcovers.2.trans h)) (by simp [hstart])

theorem not_apart_of_stop (hcovers : s.Covers u) (hu : u.start < u.stop) (ht : t.start < t.stop)
    (hstop : t.stop = u.stop) : ¬t.Apart s := by
  rintro (h | h)
  · exact absurd ((h.trans hcovers.1).trans_lt hu) (by simp [hstop])
  · exact absurd ((hcovers.2.trans h).trans_lt ht) (by simp [hstop])

end Span

namespace Syntax

/-- Statements that hold statements. -/
def NodeClass.isCompound : NodeClass → Bool
  | .classDef | .functionDef _ | .ifStmt | .matchStmt | .whileLoop | .forLoop _ | .tryStmt _ | .plain .withStmt
  | .plain .asyncWith => true
  | _ => false

/-- Whether the node starts with a keyword that belongs to none of its children. -/
def Node.isWider (n : Node) : Bool := (n.cls?.map fun c ↦ c.isCompound || c == .lambda).getD false

/-- Whether the node can carry a place. -/
def Node.placeable (n : Node) : Bool := (n.cls?.map (·.role.placeable)).getD false

/-- An operator has at least two operands, and a `try` has handlers or a `finally`. -/
def Node.complete : Node → Bool
  | .mk _ .boolOp _ [_, .many values] => decide (2 ≤ values.length)
  | .mk _ (.tryStmt _) _ [_, .many handlers, _, .many finalbody] => !(handlers.isEmpty && finalbody.isEmpty)
  | _ => true

theorem placeable_of_isA {full : Bool} {cat : Category} {n : Node} (h : n.isA full cat = true)
    (hcat : cat.located = true) : n.placeable = true := by
  cases n with
  | gap => simp [Node.isA] at h
  | mk i c p fs =>
    obtain ⟨rfl, -⟩ := isA_mk.1 h
    exact Role.placeable_of_required (required_of_located hcat)

theorem ne_gap_of_placeable {n : Node} (h : n.placeable = true) : n ≠ .gap := by
  rintro rfl
  cases h

theorem decorators_eq_nil {full : Bool} {cat : Category} {n : Node} (h : n.isA full cat = true)
    (hcat : cat ≠ .statement) : n.decorators = [] := by
  unfold Node.decorators
  split
  next => exact absurd (isA_mk.1 h).1.symm hcat
  next => exact absurd (isA_mk.1 h).1.symm hcat
  next => rfl

/-- Decorators are expressions right below a definition. -/
theorem mem_decorators {full : Bool} {cat : Category} {n d : Node} (h : n.isA full cat = true)
    (hd : d ∈ n.decorators) : d ∈ n.children ∧ d.isA full .expression = true := by
  cases n with
  | gap => cases hd
  | mk i c p fs =>
    cases shape_of_fits (isA_mk.1 h).2 with
    | @classDef name bases keywords body decorators hname hbases hkeywords hsome hbody hdecorators =>
      have hd : d ∈ decorators := hd
      exact ⟨by simp [Node.children, Field.children, hd], Pass.isA_of_mem hdecorators hd⟩
    | @functionDef async name args body decorators returns comment hargs hsome hbody hdecorators =>
      have hd : d ∈ decorators := hd
      exact ⟨by simp [Node.children, Field.children, hd], Pass.isA_of_mem hdecorators hd⟩
    | _ => cases hd

end Syntax

namespace Pass

open Syntax

/-- A tree of the grammar with complete and properly nested places. -/
structure ProperlyNested (full : Bool) (tree : Node) : Prop where
  grammar : tree.isA full .root = true
  stocked : tree.stocked = true
  complete : ∀ n ∈ tree.nodes, n.complete = true
  distinct : tree.ids.Nodup
  placed : tree.placed = true
  nonempty : ∀ n ∈ tree.nodes, n.placeable = true → (spanOf n).start < (spanOf n).stop
  apart : ∀ n ∈ tree.nodes, ∀ m ∈ tree.nodes, n.placeable = true → m.placeable = true → n.Unrelated m →
    (spanOf n).Apart (spanOf m)
  within : ∀ n ∈ tree.nodes, ∀ m ∈ n.nodes, n.placeable = true → m.placeable = true →
    (∀ d ∈ n.decorators, d.Unrelated m) → (spanOf n).Covers (spanOf m)
  aside : ∀ n ∈ tree.nodes, ∀ d ∈ n.decorators, n.placeable = true → (spanOf n).Apart (spanOf d)
  strict : ∀ n ∈ tree.nodes, n.isWider = true → ∀ m ∈ n.children, m.placeable = true → spanOf m ≠ spanOf n

namespace ProperlyNested

variable {full : Bool} {tree n m k d : Node} {i : NodeId} {c : NodeClass} {p : Place} {fs : List Field}

theorem isA (h : ProperlyNested full tree) (hn : n ∈ tree.nodes) : ∃ cat, n.isA full cat = true :=
  isA_of_mem_nodes h.grammar n hn

theorem fits (h : ProperlyNested full tree) (hn : .mk i c p fs ∈ tree.nodes) : fieldsFit full c.contents fs = true := by
  obtain ⟨cat, hcat⟩ := h.isA hn
  exact (isA_mk.1 hcat).2

theorem ids (h : ProperlyNested full tree) (hn : n ∈ tree.nodes) : n.ids.Nodup :=
  h.distinct.sublist (ids_sublist hn)

/-- A node covers what is below a child that is not one of its decorators. -/
theorem covers_child (h : ProperlyNested full tree) (hn : n ∈ tree.nodes) (hplace : n.placeable = true)
    (hk : k ∈ n.children) (hnot : k ∉ n.decorators) (hm : m ∈ k.nodes) (hplace' : m.placeable = true) :
    (spanOf n).Covers (spanOf m) := by
  refine h.within n hn m (mem_nodes_of_child hk hm) hplace hplace' fun d hd ↦ ?_
  obtain ⟨cat, hcat⟩ := h.isA hn
  obtain ⟨hd', hexpr⟩ := mem_decorators hcat hd
  have hne : d ≠ k := by
    rintro rfl
    exact hnot hd
  have hself : d ∈ d.nodes := self_mem_nodes (ne_gap_of_placeable (placeable_of_isA hexpr rfl))
  exact Unrelated.mono ((pairwise_children (h.ids hn)).forall hd' hk hne) hself hm

/-- The range of a node covers those of the nodes below it. -/
theorem covers (h : ProperlyNested full tree) (hn : n ∈ tree.nodes) (hplace : n.placeable = true)
    (hplain : n.decorators = []) (hm : m ∈ n.nodes) (hplace' : m.placeable = true) :
    (spanOf n).Covers (spanOf m) :=
  h.within n hn m hm hplace hplace' (by simp [hplain])

/-- All of a decorator is apart from the definition. -/
theorem apart_decorator (h : ProperlyNested full tree) (hn : n ∈ tree.nodes) (hplace : n.placeable = true)
    (hd : d ∈ n.decorators) (hm : m ∈ d.nodes) (hplace' : m.placeable = true) : (spanOf n).Apart (spanOf m) := by
  obtain ⟨cat, hcat⟩ := h.isA hn
  obtain ⟨hchild, hexpr⟩ := mem_decorators hcat hd
  have hd' : d.placeable = true := placeable_of_isA hexpr rfl
  have hmem : d ∈ tree.nodes := nodes_trans hn (child_mem_nodes hchild (ne_gap_of_placeable hd'))
  have hcovers : (spanOf d).Covers (spanOf m) := h.covers hmem hd' (decorators_eq_nil hexpr (by decide)) hm hplace'
  exact (h.aside n hn d hd hplace).of_covers hcovers

/-- A node covers a node below it, or is apart from it. -/
theorem covers_or_apart (h : ProperlyNested full tree) (hn : n ∈ tree.nodes) (hplace : n.placeable = true)
    (hm : m ∈ n.nodes) (hplace' : m.placeable = true) :
    (spanOf n).Covers (spanOf m) ∨ (spanOf n).Apart (spanOf m) := by
  rcases mem_nodes hm with rfl | ⟨k, hk, hm⟩
  · exact .inl (Span.Covers.refl _)
  by_cases hd : k ∈ n.decorators
  · exact .inr (h.apart_decorator hn hplace hd hm hplace')
  · exact .inl (h.covers_child hn hplace hk hd hm hplace')

/-- Nodes that are not apart are above or below each other. -/
theorem mem_nodes_or (h : ProperlyNested full tree) (hn : n ∈ tree.nodes) (hm : m ∈ tree.nodes)
    (hplace : n.placeable = true) (hplace' : m.placeable = true) (hnot : ¬(spanOf n).Apart (spanOf m)) :
    n ∈ m.nodes ∨ m ∈ n.nodes :=
  (related_or_unrelated h.distinct hn hm).resolve_left fun hun ↦ hnot (h.apart n hn m hm hplace hplace' hun)

/-- A node is longer than one below it if it covers another one beside that. -/
theorem spanOf_ne_of_beside (h : ProperlyNested full tree) (hn : n ∈ tree.nodes) (hm : m ∈ n.nodes) (hk : k ∈ n.nodes)
    (hmplace : m.placeable = true) (hkplace : k.placeable = true) (hcovers : (spanOf n).Covers (spanOf k))
    (hbeside : m.Unrelated k) : spanOf m ≠ spanOf n :=
  Span.ne_of_apart hcovers (h.nonempty k (nodes_trans hn hk) hkplace)
    (h.apart m (nodes_trans hn hm) k (nodes_trans hn hk) hmplace hkplace hbeside)

theorem spanOf_ne_of_apart (h : ProperlyNested full tree) (hn : n ∈ tree.nodes) (hplace : n.placeable = true)
    (hapart : (spanOf n).Apart (spanOf m)) : spanOf m ≠ spanOf n :=
  Span.ne_of_apart (Span.Covers.refl _) (h.nonempty n hn hplace) hapart.symm

/-- A compound statement or lambda is longer than what is below a child with a place. -/
theorem spanOf_ne_of_child (h : ProperlyNested full tree) (hn : n ∈ tree.nodes) (hwider : n.isWider = true)
    (hplace : n.placeable = true) (hk : k ∈ n.children) (hkplace : k.placeable = true) (hm : m ∈ k.nodes)
    (hplace' : m.placeable = true) : spanOf m ≠ spanOf n := by
  have hkself : k ∈ k.nodes := self_mem_nodes (ne_gap_of_placeable hkplace)
  have hkmem : k ∈ tree.nodes := nodes_trans hn (mem_nodes_of_child hk hkself)
  by_cases hd : k ∈ n.decorators
  · exact h.spanOf_ne_of_apart hn hplace (h.apart_decorator hn hplace hd hm hplace')
  have hcovers : (spanOf n).Covers (spanOf k) := h.covers_child hn hplace hk hd hkself hkplace
  rcases h.covers_or_apart hkmem hkplace hm hplace' with hin | hout
  · intro heq
    exact h.strict n hn hwider k hk hkplace (Span.Covers.antisymm (heq ▸ hin) hcovers)
  · exact Span.ne_of_apart hcovers (h.nonempty k hkmem hkplace) hout.symm

/-- A definition is longer than what is below a child if it has another child that is no decorator. -/
theorem spanOf_ne_of_sibling (h : ProperlyNested full tree) (hn : n ∈ tree.nodes) (hplace : n.placeable = true)
    (hk : k ∈ n.children) (hm : m ∈ k.nodes) (hplace' : m.placeable = true) {q : Node} (hq : q ∈ n.children)
    (hqplace : q.placeable = true) (hnot : q ∉ n.decorators) (hne : q ≠ k) : spanOf m ≠ spanOf n := by
  have hself : q ∈ q.nodes := self_mem_nodes (ne_gap_of_placeable hqplace)
  have hbeside : m.Unrelated q := Unrelated.mono ((pairwise_children (h.ids hn)).forall hk hq hne.symm) hm hself
  exact h.spanOf_ne_of_beside hn (mem_nodes_of_child hk hm) (mem_nodes_of_child hq hself) hplace' hqplace
    (h.covers_child hn hplace hq hnot hself hqplace) hbeside

end ProperlyNested

end Pass

end Coverage
