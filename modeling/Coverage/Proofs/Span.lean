import Coverage.Span

/-!
# Keys tell units apart

The text of a span can be read back: numbers are written with digits and at most a sign in front, so the first colon
ends the first line, the first dash behind a digit ends the first column, and so on. The letter of a kind is one
character. So two units share a key only if they have the same kind and the same span.
-/

namespace Coverage

/-- The part of a text before the first separator. -/
theorem append_cons_inj {c : Char} {x y r r' : List Char} (hx : c ∉ x) (hy : c ∉ y)
    (h : x ++ c :: r = y ++ c :: r') : x = y ∧ r = r' := by
  induction x generalizing y with
  | nil =>
    cases y with
    | nil => exact ⟨rfl, (List.cons.inj h).2⟩
    | cons b y => exact absurd ((List.cons.inj h).1 ▸ List.mem_cons_self) hy
  | cons a x ih =>
    cases y with
    | nil => exact absurd ((List.cons.inj h).1 ▸ List.mem_cons_self) hx
    | cons b y =>
      obtain ⟨rfl, hrest⟩ := List.cons.inj h
      obtain ⟨rfl, hr⟩ := ih (fun hc ↦ hx (List.mem_cons_of_mem _ hc)) (fun hc ↦ hy (List.mem_cons_of_mem _ hc)) hrest
      exact ⟨rfl, hr⟩

/-! ## Numerals -/

theorem not_mem_repr {n : Nat} {c : Char} (hc : c.isDigit = false) : c ∉ n.repr.toList := by
  intro h
  rw [Nat.toList_repr] at h
  rw [Nat.isDigit_of_mem_toDigits (by decide) (by decide) h] at hc
  cases hc

theorem toList_negSucc (n : Nat) : (toString (Int.negSucc n)).toList = '-' :: (n + 1).repr.toList := by
  change ("-" ++ (n + 1).repr).toList = _
  rw [String.toList_append]
  rfl

theorem colon_not_mem (n : Int) : ':' ∉ (toString n).toList := by
  cases n with
  | ofNat n => exact not_mem_repr (by decide)
  | negSucc n =>
    rw [toList_negSucc, List.mem_cons]
    exact not_or.2 ⟨by decide, not_mem_repr (by decide)⟩

theorem repr_inj {m n : Nat} (h : m.repr.toList = n.repr.toList) : m = n := by
  have hread : ∀ k : Nat, Nat.ofDigitChars 10 k.repr.toList 0 = k := by
    intro k
    rw [Nat.toList_repr, Nat.ofDigitChars_toDigits (by decide) (by decide)]
  rw [← hread m, h, hread n]

/-- A numeral without a sign does not start with a dash. -/
theorem repr_ne_dash {n : Nat} {x r : List Char} : n.repr.toList ++ x ≠ '-' :: r := by
  intro h
  cases hdigits : n.repr.toList with
  | nil =>
    rw [Nat.toList_repr] at hdigits
    exact Nat.toDigits_ne_nil hdigits
  | cons d ds =>
    rw [hdigits] at h
    exact not_mem_repr (by decide) ((List.cons.inj h).1 ▸ hdigits ▸ List.mem_cons_self)

/-- A numeral ends where a dash follows a digit. -/
theorem toString_dash_inj {m n : Int} {r r' : List Char}
    (h : (toString m).toList ++ '-' :: r = (toString n).toList ++ '-' :: r') : m = n ∧ r = r' := by
  have hdash : ∀ k : Nat, '-' ∉ k.repr.toList := fun k ↦ not_mem_repr (by decide)
  cases m with
  | ofNat m =>
    cases n with
    | ofNat n =>
      obtain ⟨hdigits, hr⟩ := append_cons_inj (hdash m) (hdash n) h
      exact ⟨congrArg Int.ofNat (repr_inj hdigits), hr⟩
    | negSucc n =>
      rw [toList_negSucc] at h
      exact absurd h repr_ne_dash
  | negSucc m =>
    rw [toList_negSucc] at h
    cases n with
    | ofNat n => exact absurd h.symm repr_ne_dash
    | negSucc n =>
      rw [toList_negSucc] at h
      obtain ⟨hdigits, hr⟩ := append_cons_inj (hdash _) (hdash _) (List.cons.inj h).2
      exact ⟨congrArg Int.negSucc (Nat.succ.inj (repr_inj hdigits)), hr⟩

theorem toString_inj {m n : Int} (h : (toString m).toList = (toString n).toList) : m = n :=
  (toString_dash_inj (congrArg (· ++ ['-']) h)).1

/-! ## Spans and keys -/

theorem toList_text (s : Span) : s.text.toList =
    (toString s.startLine).toList ++ ':' :: ((toString s.startColumn).toList ++
      '-' :: ((toString s.endLine).toList ++ ':' :: (toString s.endColumn).toList)) := by
  simp [Span.text, String.toList_append]

theorem text_inj {s t : Span} (h : s.text.toList = t.text.toList) : s = t := by
  rw [toList_text, toList_text] at h
  obtain ⟨hline, h⟩ := append_cons_inj (colon_not_mem _) (colon_not_mem _) h
  obtain ⟨hcolumn, h⟩ := toString_dash_inj h
  obtain ⟨hendLine, hendColumn⟩ := append_cons_inj (colon_not_mem _) (colon_not_mem _) h
  obtain ⟨l, c, el, ec⟩ := s
  obtain ⟨l', c', el', ec'⟩ := t
  rw [Span.mk.injEq]
  exact ⟨toString_inj hline, hcolumn, toString_inj hendLine, toString_inj hendColumn⟩

theorem toList_keyOf (kind : Kind) (span : Span) :
    (keyOf kind span).toList = kind.letter.toList ++ span.text.toList := by
  rw [keyOf, String.toList_append]

def kindOf? (key : Key) : Option Kind := Kind.all.find? fun kind ↦ key.toList.head? == kind.letter.toList.head?

theorem kindOf_keyOf (kind : Kind) (span : Span) : kindOf? (keyOf kind span) = some kind := by
  rw [kindOf?, toList_keyOf]
  cases kind <;> rfl

/-- Units with one key have the same kind and the same span. -/
theorem keyOf_inj {kind kind' : Kind} {span span' : Span} (h : keyOf kind span = keyOf kind' span') :
    kind = kind' ∧ span = span' := by
  have hkind : kind = kind' := by
    rw [← Option.some.injEq, ← kindOf_keyOf kind span, h, kindOf_keyOf]
  subst hkind
  have htext := congrArg String.toList h
  rw [toList_keyOf, toList_keyOf] at htext
  exact ⟨rfl, text_inj (List.append_cancel_left htext)⟩

end Coverage
