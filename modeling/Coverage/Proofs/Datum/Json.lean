import Mathlib.Data.List.DropRight
import Mathlib.Data.List.TakeDrop
import Coverage.Datum.Json

/-!
# Reading JSON that was written

Data without binary numbers whose maps have text keys is read back from its text as it was, whatever the style. The
reader takes a value from the start of a text and leaves the rest, so the statements are about a text that goes on, as
long as it does not go on with what could belong to a number. The steps the reader is given are bounded by the length
of the text.
-/

namespace Coverage.Json

open Coverage.Text (hex hexDigit)

variable {c : Char} {rest blank cs : List Char} {fuel : Nat} {d : Datum}

/-! ## Strings -/

attribute [local simp] readString

theorem hexValue?_hexDigit (n : Nat) : hexValue? (hexDigit n) = some (n % 16) := by
  have hall : ∀ k < 16, hexValue? (hexDigit k) = some k := by decide
  have hmod : hexDigit (n % 16) = hexDigit n := by
    unfold hexDigit
    rw [Nat.mod_mod]
  rw [← hmod]
  exact hall (n % 16) (Nat.mod_lt n (by decide))

theorem hex_four (n : Nat) : hex 4 n = [hexDigit (n / 4096), hexDigit (n / 256), hexDigit (n / 16), hexDigit n] := by
  simp [hex, List.range_succ]

theorem unit?_hexDigits {n : Nat} (h : n < 0x10000) :
    unit? (hexDigit (n / 4096)) (hexDigit (n / 256)) (hexDigit (n / 16)) (hexDigit n) = some n := by
  simp only [unit?, hexValue?_hexDigit, Option.bind_eq_bind, Option.bind_some, Option.pure_def, Option.some_inj]
  omega

theorem readString_hex {n : Nat} (h : n < 0x10000) (acc : List Nat) (cs : List Char) :
    readString acc ('\\' :: 'u' :: (hex 4 n ++ cs)) = readString (n :: acc) cs := by
  rw [hex_four]
  simp [unit?_hexDigits h]

theorem readString_of_ne (hquote : c ≠ '"') (hslash : c ≠ '\\') (acc : List Nat) (cs : List Char) :
    readString acc (c :: cs) = readString (c.toNat :: acc) cs := by
  rw [readString]
  all_goals simp_all

/-- No character is one half of a pair. -/
theorem toNat_range (c : Char) : c.toNat < 0xd800 ∨ 0xdfff < c.toNat ∧ c.toNat < 0x110000 := c.valid

/-- The code points and units a character is read from. -/
def unitsOf (style : Style) (c : Char) : List Nat :=
  if style.ascii ∧ 0x10000 ≤ c.toNat then
    [0xd800 + (c.toNat - 0x10000) / 0x400, 0xdc00 + (c.toNat - 0x10000) % 0x400]
  else [c.toNat]

/-- Escaped units are read back. -/
theorem readString_escapeUnits {style : Style} (hstyle : 0x10000 ≤ c.toNat → style.ascii) (acc : List Nat)
    (cs : List Char) : readString acc (escapeUnits c ++ cs) = readString ((unitsOf style c).reverse ++ acc) cs := by
  have hrange := toNat_range c
  by_cases h : c.toNat < 0x10000
  · simp [escapeUnits, unitsOf, h, Nat.not_le.2 h, readString_hex]
  · have hlarge : 0x10000 ≤ c.toNat := Nat.not_lt.1 h
    simp only [escapeUnits, unitsOf, h, hlarge, hstyle hlarge, if_false, and_self, if_true, List.append_assoc,
      List.cons_append, List.nil_append]
    rw [readString_hex (by omega), readString_hex (by omega)]
    rfl

/-- What a character is written as is read as its units. -/
theorem readString_escapeChar (style : Style) (c : Char) (acc : List Nat) (cs : List Char) :
    readString acc (escapeChar style c ++ cs) = readString ((unitsOf style c).reverse ++ acc) cs := by
  by_cases hshort : c ∈ ['"', '\\', '\n', '\r', '\t', '\x08', '\x0c']
  · have hunits : unitsOf style c = [c.toNat] := if_neg fun h ↦ by
      simp only [List.mem_cons, List.not_mem_nil, or_false] at hshort
      rcases hshort with rfl | rfl | rfl | rfl | rfl | rfl | rfl <;> exact absurd h.2 (by decide)
    rw [hunits]
    simp only [List.mem_cons, List.not_mem_nil, or_false] at hshort
    rcases hshort with rfl | rfl | rfl | rfl | rfl | rfl | rfl <;> rfl
  · simp only [List.mem_cons, List.not_mem_nil, or_false, not_or] at hshort
    obtain ⟨hquote, hslash, hn, hr, ht, hb, hf⟩ := hshort
    simp only [escapeChar, hquote, hslash, hn, hr, ht, hb, hf, decide_false, Bool.or_self, Bool.false_eq_true, if_false]
    split
    next hcontrol => exact readString_escapeUnits (fun h ↦ absurd h (by omega)) acc cs
    next =>
      split
      next hascii => exact readString_escapeUnits (fun _ ↦ (Bool.and_eq_true_iff.1 hascii).1) acc cs
      next hplain =>
        have hunits : unitsOf style c = [c.toNat] := if_neg fun h ↦ hplain (by simp [h.1]; omega)
        rw [hunits]
        exact readString_of_ne hquote hslash acc cs

/-! ## Halves of pairs -/

theorem joinHalves_toNat (c : Char) (ns : List Nat) : joinHalves (c.toNat :: ns) = c :: joinHalves ns := by
  have hrange := toNat_range c
  have hlone : loneUnit c.toNat = c := by
    rw [loneUnit, if_neg (by omega), Char.ofNat_toNat]
  cases ns with
  | nil => simp [joinHalves, hlone]
  | cons n ns => rw [joinHalves, if_neg (by omega), hlone]

/-- The halves of a character are joined again. -/
theorem joinHalves_unitsOf (style : Style) (c : Char) (ns : List Nat) :
    joinHalves (unitsOf style c ++ ns) = c :: joinHalves ns := by
  have hrange := toNat_range c
  unfold unitsOf
  split
  next hpair =>
    have hpoint : 0x10000 + (0xd800 + (c.toNat - 0x10000) / 0x400 - 0xd800) * 0x400 +
        (0xdc00 + (c.toNat - 0x10000) % 0x400 - 0xdc00) = c.toNat := by omega
    rw [List.cons_append, List.cons_append, List.nil_append, joinHalves, if_pos (by omega), joinUnits, hpoint,
      Char.ofNat_toNat]
  next => exact joinHalves_toNat c ns

theorem joinHalves_flatMap (style : Style) (cs : List Char) : joinHalves (cs.flatMap (unitsOf style)) = cs := by
  induction cs with
  | nil => rfl
  | cons c cs ih => rw [List.flatMap_cons, joinHalves_unitsOf, ih]

theorem readString_escaped (style : Style) (cs : List Char) (acc : List Nat) (rest : List Char) :
    readString acc (cs.flatMap (escapeChar style) ++ '"' :: rest) =
      some (String.ofList (joinHalves (acc.reverse ++ cs.flatMap (unitsOf style))), rest) := by
  induction cs generalizing acc with
  | nil => simp
  | cons c cs ih =>
    rw [List.flatMap_cons, List.append_assoc, readString_escapeChar, ih]
    simp

/-- A string that is written is read as it was. -/
theorem readString_string (style : Style) (s : String) (rest : List Char) :
    ∃ body, (string style s).toList = '"' :: body ∧ readString [] (body ++ rest) = some (s, rest) := by
  refine ⟨s.toList.flatMap (escapeChar style) ++ ['"'], by simp [string], ?_⟩
  rw [List.append_assoc, List.singleton_append, readString_escaped, List.reverse_nil, List.nil_append,
    joinHalves_flatMap, String.ofList_toList]

/-! ## Numbers -/

/-- The text does not go on with what could belong to a number. -/
def EndsNumber (rest : List Char) : Prop := ∀ c ∈ rest.head?, c.isDigit = false ∧ c ∉ ['.', 'e', 'E']

theorem readFraction_of_ends (h : EndsNumber rest) : readFraction rest = ([], rest) := by
  cases rest with
  | nil => rfl
  | cons c rest =>
    have hpoint : c ≠ '.' := fun heq ↦ (h c rfl).2 (heq ▸ List.mem_cons_self)
    rw [readFraction]
    simpa using hpoint

theorem readExponent_of_ends (h : EndsNumber rest) : readExponent rest = (none, rest) := by
  cases rest with
  | nil => rfl
  | cons c rest =>
    have hletter : ¬ (c = 'e' || c = 'E') := by
      have := (h c rfl).2
      simp_all
    unfold readExponent
    exact if_neg hletter

theorem span_digits {ds : List Char} (hds : ∀ d ∈ ds, d.isDigit) (h : EndsNumber rest) :
    (ds ++ rest).span Char.isDigit = (ds, rest) := by
  have hrest : rest.takeWhile Char.isDigit = [] ∧ rest.dropWhile Char.isDigit = rest := by
    cases rest with
    | nil => exact ⟨rfl, rfl⟩
    | cons c rest => simp [(h c rfl).1]
  rw [List.span_eq_takeWhile_dropWhile, List.takeWhile_append_of_pos hds, List.dropWhile_append_of_pos hds, hrest.1,
    hrest.2, List.append_nil]

theorem isDigit_of_mem_repr {n : Nat} : ∀ d ∈ n.repr.toList, d.isDigit := fun d hd ↦ by
  rw [Nat.toList_repr] at hd
  exact Nat.isDigit_of_mem_toDigits (by decide) (by decide) hd

theorem digitsValue_repr (n : Nat) : digitsValue n.repr.toList = n := by
  rw [Nat.toList_repr]
  exact Nat.ofDigitChars_toDigits (by decide) (by decide)

theorem exists_repr_eq_cons (n : Nat) : ∃ d ds, n.repr.toList = d :: ds := by
  rw [Nat.toList_repr]
  exact List.exists_cons_of_ne_nil Nat.toDigits_ne_nil

theorem readNumber_repr (negative : Bool) (n : Nat) (h : EndsNumber rest) :
    readNumber negative (n.repr.toList ++ rest) = some (.int (if negative then -n else n), rest) := by
  obtain ⟨d, ds, hcons⟩ := exists_repr_eq_cons n
  have hspan : (n.repr.toList ++ rest).span Char.isDigit = (d :: ds, rest) := by
    rw [span_digits isDigit_of_mem_repr h, hcons]
  have hvalue : digitsValue (d :: ds) = n := hcons ▸ digitsValue_repr n
  simp only [readNumber, hspan, readFraction_of_ends h, readExponent_of_ends h, hvalue, List.isEmpty_nil,
    Option.isNone_none, Bool.and_self, if_true]

/-! ## Blanks -/

/-- Nothing but blanks. -/
def Blank (cs : List Char) : Prop := ∀ c ∈ cs, isSpace c

theorem skipSpace_append (h : Blank blank) (cs : List Char) :
    skipSpace (blank ++ cs) = skipSpace cs := List.dropWhile_append_of_pos h

theorem skipSpace_cons (h : isSpace c = false) (cs : List Char) : skipSpace (c :: cs) = c :: cs :=
  List.dropWhile_cons_of_neg (by simp [h])

theorem skipSpace_skipSpace (cs : List Char) : skipSpace (skipSpace cs) = skipSpace cs := List.dropWhile_idempotent ..

attribute [local simp] readValue readItems readPairs in
theorem readValue_congr {cs' : List Char} (h : skipSpace cs = skipSpace cs') :
    readValue fuel cs = readValue fuel cs' := by
  cases fuel with
  | zero => simp
  | succ fuel => simp [h]

theorem readItems_congr {cs' : List Char} (h : skipSpace cs = skipSpace cs') :
    readItems fuel cs = readItems fuel cs' := by
  cases fuel with
  | zero => rw [readItems, readItems]
  | succ fuel => rw [readItems, readItems, readValue_congr h]

theorem readPairs_congr {cs' : List Char} (h : skipSpace cs = skipSpace cs') :
    readPairs fuel cs = readPairs fuel cs' := by
  cases fuel with
  | zero => rw [readPairs, readPairs]
  | succ fuel => rw [readPairs, readPairs, h]

theorem blank_newline (style : Style) (level : Nat) : Blank (style.newline level).toList := by
  unfold Style.newline
  cases style.indent with
  | none => simp [Blank]
  | some width =>
    have hblanks : ∀ n, Blank ("".pushn ' ' n).toList := by
      intro n
      induction n with
      | zero => exact List.forall_mem_nil _
      | succ n ih =>
        have hpush : ("".pushn ' ' (n + 1)).toList = ("".pushn ' ' n).toList ++ [' '] := String.toList_push ' '
        rw [Blank, hpush]
        exact List.forall_mem_append.2 ⟨ih, List.forall_mem_singleton.2 rfl⟩
    rw [String.toList_append]
    exact List.forall_mem_append.2 ⟨List.forall_mem_singleton.2 rfl, hblanks _⟩

theorem comma_eq (style : Style) (level : Nat) :
    ∃ blank, Blank blank ∧ (style.comma level).toList = ',' :: blank := by
  unfold Style.comma
  cases style.indent with
  | none => exact ⟨[' '], by simp [Blank, isSpace], by simp⟩
  | some width => exact ⟨_, blank_newline style level, by simp⟩

theorem endsNumber_append (hblank : Blank blank) (h : EndsNumber rest) : EndsNumber (blank ++ rest) := by
  cases blank with
  | nil => exact h
  | cons c cs =>
    have hspace : isSpace c := hblank c List.mem_cons_self
    intro c' hc'
    obtain rfl : c = c' := Option.some.inj hc'
    simp only [isSpace, Bool.or_eq_true, beq_iff_eq] at hspace
    rcases hspace with ((rfl | rfl) | rfl) | rfl <;> decide

/-! ## Values -/

/-- Data that JSON text keeps: no binary numbers, and text for keys. -/
inductive Textual : Datum → Prop
  | null : Textual .null
  | bool (b : Bool) : Textual (.bool b)
  | int (n : Int) : Textual (.int n)
  | str (s : String) : Textual (.str s)
  | list {items : List Datum} (h : ∀ d ∈ items, Textual d) : Textual (.list items)
  | map {pairs : List (Datum × Datum)} (hkeys : ∀ p ∈ pairs, ∃ s, p.1 = .str s) (h : ∀ p ∈ pairs, Textual p.2) :
    Textual (.map pairs)

/-- The value is read from its text, however the text goes on. -/
def ReadsBack (style : Style) (level : Nat) (d : Datum) : Prop :=
  ∀ fuel rest, (render style level d).toList.length ≤ fuel → EndsNumber rest →
    readValue fuel ((render style level d).toList ++ rest) = some (d, rest)

section Values

variable {style : Style} {level : Nat}

theorem isSpace_digit {d : Char} (h : d.isDigit) : isSpace d = false := by
  by_contra hspace
  simp only [isSpace, Bool.not_eq_false, Bool.or_eq_true, beq_iff_eq] at hspace
  rcases hspace with ((rfl | rfl) | rfl) | rfl <;> exact absurd h (by decide)

theorem readValue_digit {d : Char} (h : d.isDigit) (fuel : Nat) (cs : List Char) :
    readValue (fuel + 1) (d :: cs) = readNumber false (d :: cs) := by
  rw [readValue, skipSpace_cons (isSpace_digit h)]
  split <;> simp_all

theorem readValue_dash {d : Char} (h : d.isDigit) (fuel : Nat) (cs : List Char) :
    readValue (fuel + 1) ('-' :: d :: cs) = readNumber true (d :: cs) := by
  rw [readValue, skipSpace_cons rfl]
  split <;> simp_all

/-- A text is not empty, so there are steps enough for its first character. -/
theorem ReadsBack.of_cons (htext : (render style level d).toList = c :: cs)
    (h : ∀ fuel rest, cs.length ≤ fuel → EndsNumber rest → readValue (fuel + 1) (c :: (cs ++ rest)) = some (d, rest)) :
    ReadsBack style level d := by
  intro fuel rest hfuel hrest
  rw [htext] at hfuel ⊢
  cases fuel with
  | zero => simp at hfuel
  | succ fuel => exact h fuel rest (Nat.le_of_succ_le_succ hfuel) hrest

/-- Whole numbers are read back. -/
theorem readsBack_int (n : Int) : ReadsBack style level (.int n) := by
  cases n with
  | ofNat n =>
    obtain ⟨d, ds, hcons⟩ := exists_repr_eq_cons n
    have htext : (render style level (.int (Int.ofNat n))).toList = d :: ds := by
      rw [render, ← hcons]
      rfl
    refine .of_cons htext fun fuel rest _ hrest ↦ ?_
    have hdigit : d.isDigit := isDigit_of_mem_repr d (hcons ▸ List.mem_cons_self)
    have hnumber := readNumber_repr false n hrest
    rw [hcons, List.cons_append] at hnumber
    rw [readValue_digit hdigit, hnumber]
    rfl
  | negSucc n =>
    obtain ⟨d, ds, hcons⟩ := exists_repr_eq_cons (n + 1)
    have htext : (render style level (.int (Int.negSucc n))).toList = '-' :: d :: ds := by
      rw [render, ← hcons]
      exact String.toList_append
    refine .of_cons htext fun fuel rest _ hrest ↦ ?_
    have hdigit : d.isDigit := isDigit_of_mem_repr d (hcons ▸ List.mem_cons_self)
    have hnumber := readNumber_repr true (n + 1) hrest
    rw [hcons, List.cons_append] at hnumber
    rw [List.cons_append, readValue_dash hdigit, hnumber]
    rfl

theorem readsBack_str (s : String) : ReadsBack style level (.str s) := by
  obtain ⟨body, hbody, -⟩ := readString_string style s []
  have htext : (render style level (.str s)).toList = '"' :: body := by rw [render, hbody]
  refine .of_cons htext fun fuel rest _ _ ↦ ?_
  obtain ⟨body', hbody', hread⟩ := readString_string style s rest
  obtain rfl : body = body' := (List.cons.inj (hbody.symm.trans hbody')).2
  rw [readValue, skipSpace_cons rfl]
  simp [hread]

theorem readsBack_constant (h : d = .null ∨ ∃ b, d = .bool b) : ReadsBack style level d := by
  obtain rfl | ⟨_ | _, rfl⟩ := h
  all_goals
    refine .of_cons (by rw [render]; rfl) fun fuel rest _ _ ↦ ?_
    rw [readValue, skipSpace_cons rfl]
    rfl

/-! ## Lists and maps -/

theorem toList_intercalate_cons_cons (sep t t' : String) (ts : List String) :
    (sep.intercalate (t :: t' :: ts)).toList = t.toList ++ (sep.toList ++ (sep.intercalate (t' :: ts)).toList) := by
  simp [String.toList_intercalate, List.intercalate]

/-- Items separated by commas are read up to the bracket. -/
theorem readItems_render {ds : List Datum} (h : ∀ d' ∈ d :: ds, ReadsBack style level d')
    (hblank : Blank blank) (fuel : Nat) (rest : List Char)
    (hfuel : ((style.comma level).intercalate (renderItems style level (d :: ds))).toList.length < fuel) :
    readItems fuel (((style.comma level).intercalate (renderItems style level (d :: ds))).toList ++
      (blank ++ ']' :: rest)) = some (d :: ds, rest) := by
  obtain ⟨gap, hgap, hcomma⟩ := comma_eq style level
  induction ds generalizing d fuel with
  | nil =>
    cases fuel with
    | zero => omega
    | succ fuel =>
      have htext : (style.comma level).intercalate (renderItems style level [d]) = render style level d := rfl
      rw [htext] at hfuel ⊢
      have hvalue := h d List.mem_cons_self fuel (blank ++ ']' :: rest) (by omega)
        (endsNumber_append hblank (by simp [EndsNumber]))
      rw [readItems, hvalue]
      simp only
      rw [skipSpace_append hblank]
      rfl
  | cons d' ds ih =>
    cases fuel with
    | zero => omega
    | succ fuel =>
      have htext : ((style.comma level).intercalate (renderItems style level (d :: d' :: ds))).toList =
          (render style level d).toList ++
            (',' :: gap ++ ((style.comma level).intercalate (renderItems style level (d' :: ds))).toList) := by
        rw [← hcomma]
        exact toList_intercalate_cons_cons ..
      rw [htext] at hfuel ⊢
      simp only [List.length_append, List.length_cons] at hfuel
      have hvalue := h d List.mem_cons_self fuel
      have hitems := ih (fun e he ↦ h e (List.mem_cons_of_mem d he)) fuel (by omega)
      rw [readItems, List.append_assoc, List.append_assoc, List.cons_append,
        hvalue _ (by omega) (by simp [EndsNumber])]
      simp only [skipSpace_cons (show isSpace ',' = false from rfl)]
      rw [readItems_congr (skipSpace_append hgap _), hitems]
      rfl

/-- A pair is read before what follows it is looked at: the end, or a comma and more pairs. -/
theorem readPairs_pair {s : String} (h : ReadsBack style level d) (fuel : Nat) (more r : List Char)
    (hfuel : (string style s ++ ": " ++ render style level d).toList.length ≤ fuel) (hmore : EndsNumber more) :
    (skipSpace more = '\x7d' :: r →
      readPairs (fuel + 1) ((string style s ++ ": " ++ render style level d).toList ++ more) =
        some ([(.str s, d)], r)) ∧
    (skipSpace more = ',' :: r →
      readPairs (fuel + 1) ((string style s ++ ": " ++ render style level d).toList ++ more) =
        (readPairs fuel r).map fun (ps, r) ↦ ((.str s, d) :: ps, r)) := by
  obtain ⟨body, hbody, hread⟩ := readString_string style s (':' :: ' ' :: ((render style level d).toList ++ more))
  have htext : (string style s ++ ": " ++ render style level d).toList ++ more =
      '"' :: (body ++ (':' :: ' ' :: ((render style level d).toList ++ more))) := by
    simp [String.toList_append, hbody]
  have hvalue : readValue fuel (' ' :: ((render style level d).toList ++ more)) = some (d, more) := by
    simp only [String.toList_append, List.length_append] at hfuel
    rw [← h fuel more (by omega) hmore]
    exact readValue_congr rfl
  rw [htext, readPairs, skipSpace_cons rfl]
  simp only [hread, skipSpace_cons (show isSpace ':' = false from rfl), hvalue]
  refine ⟨fun hr ↦ ?_, fun hr ↦ ?_⟩
  · rw [hr]
    rfl
  · rw [hr]
    rfl

/-- Pairs separated by commas are read up to the brace. -/
theorem readPairs_render {p : Datum × Datum} {ps : List (Datum × Datum)}
    (hkeys : ∀ q ∈ p :: ps, ∃ s, q.1 = .str s) (h : ∀ q ∈ p :: ps, ReadsBack style level q.2)
    (hblank : Blank blank) (fuel : Nat) (rest : List Char)
    (hfuel : ((style.comma level).intercalate (renderPairs style level (p :: ps))).toList.length < fuel) :
    readPairs fuel (((style.comma level).intercalate (renderPairs style level (p :: ps))).toList ++
      (blank ++ '\x7d' :: rest)) = some (p :: ps, rest) := by
  obtain ⟨gap, hgap, hcomma⟩ := comma_eq style level
  induction ps generalizing p fuel with
  | nil =>
    obtain ⟨key, d⟩ := p
    obtain ⟨s, rfl⟩ := hkeys (key, d) List.mem_cons_self
    have hd : ReadsBack style level d := h (.str s, d) List.mem_cons_self
    cases fuel with
    | zero => omega
    | succ fuel =>
      have htext : (style.comma level).intercalate (renderPairs style level [(.str s, d)]) =
          string style s ++ ": " ++ render style level d := rfl
      rw [htext] at hfuel ⊢
      refine (readPairs_pair hd fuel _ rest (by omega) (endsNumber_append hblank (by simp [EndsNumber]))).1 ?_
      rw [skipSpace_append hblank, skipSpace_cons rfl]
  | cons p' ps ih =>
    obtain ⟨key, d⟩ := p
    obtain ⟨s, rfl⟩ := hkeys (key, d) List.mem_cons_self
    have hd : ReadsBack style level d := h (.str s, d) List.mem_cons_self
    cases fuel with
    | zero => omega
    | succ fuel =>
      have htext : ((style.comma level).intercalate (renderPairs style level ((.str s, d) :: p' :: ps))).toList =
          (string style s ++ ": " ++ render style level d).toList ++
            (',' :: gap ++ ((style.comma level).intercalate (renderPairs style level (p' :: ps))).toList) := by
        rw [← hcomma]
        exact toList_intercalate_cons_cons ..
      rw [htext] at hfuel ⊢
      rw [List.length_append, List.length_append, List.length_cons] at hfuel
      have hpairs := ih (fun q hq ↦ hkeys q (List.mem_cons_of_mem _ hq)) (fun q hq ↦ h q (List.mem_cons_of_mem _ hq))
        fuel (by omega)
      rw [List.append_assoc, List.append_assoc, List.cons_append,
        (readPairs_pair hd fuel _ _ (by omega) (by simp [EndsNumber])).2 (skipSpace_cons rfl _),
        readPairs_congr (skipSpace_append hgap _), hpairs]
      rfl

theorem toList_enclose (opening closing : Char) (t : String) (ts : List String) :
    (enclose style level (String.singleton opening) (String.singleton closing) (t :: ts)).toList =
      opening :: ((style.newline (level + 1)).toList ++ (((style.comma (level + 1)).intercalate (t :: ts)).toList ++
        ((style.newline level).toList ++ [closing]))) := by
  simp [enclose, String.toList_append]

theorem readItems_closing (fuel : Nat) (r : List Char) : readItems fuel (']' :: r) = none := by
  rcases fuel with _ | _ | fuel <;> rfl

theorem readValue_list {r : List Char} {ds : List Datum} (h : readItems fuel cs = some (ds, r)) :
    readValue (fuel + 1) ('[' :: cs) = some (.list ds, r) := by
  have hskip : readItems fuel (skipSpace cs) = some (ds, r) := (readItems_congr (skipSpace_skipSpace cs)).trans h
  rw [readValue, skipSpace_cons rfl]
  simp only
  split
  next heq =>
    rw [heq, readItems_closing] at hskip
    cases hskip
  next =>
    rw [hskip]
    rfl

theorem readPairs_closing (fuel : Nat) (r : List Char) : readPairs fuel ('\x7d' :: r) = none := by
  cases fuel <;> rfl

theorem readValue_map {r : List Char} {ps : List (Datum × Datum)}
    (h : readPairs fuel cs = some (ps, r)) : readValue (fuel + 1) ('\x7b' :: cs) = some (.map ps, r) := by
  have hskip : readPairs fuel (skipSpace cs) = some (ps, r) := (readPairs_congr (skipSpace_skipSpace cs)).trans h
  rw [readValue, skipSpace_cons rfl]
  simp only
  split
  next heq =>
    rw [heq, readPairs_closing] at hskip
    cases hskip
  next =>
    rw [hskip]
    rfl

/-- Lists are read back if their items are. -/
theorem readsBack_list {items : List Datum} (h : ∀ d ∈ items, ∀ level, ReadsBack style level d) :
    ReadsBack style level (.list items) := by
  cases items with
  | nil =>
    have htext : (render style level (.list [])).toList = ['[', ']'] := by simp [render, renderItems, enclose]
    exact .of_cons htext fun fuel rest _ _ ↦ rfl
  | cons d ds =>
    refine .of_cons (by rw [render]; exact toList_enclose '[' ']' _ _) fun fuel rest hfuel _ ↦ ?_
    simp only [List.length_append, List.length_singleton] at hfuel
    have hitems := readItems_render (fun d' hd' ↦ h d' hd' (level + 1)) (blank_newline style level) fuel rest
      (by rw [renderItems]; omega)
    refine readValue_list ?_
    rw [List.append_assoc, readItems_congr (skipSpace_append (blank_newline style (level + 1)) _), List.append_assoc,
      List.append_assoc, List.singleton_append]
    exact hitems

/-- Maps with texts as keys are read back if their values are. -/
theorem readsBack_map {pairs : List (Datum × Datum)} (hkeys : ∀ p ∈ pairs, ∃ s, p.1 = .str s)
    (h : ∀ p ∈ pairs, ∀ level, ReadsBack style level p.2) : ReadsBack style level (.map pairs) := by
  cases pairs with
  | nil =>
    have htext : (render style level (.map [])).toList = ['\x7b', '\x7d'] := by simp [render, renderPairs, enclose]
    exact .of_cons htext fun fuel rest _ _ ↦ rfl
  | cons p ps =>
    refine .of_cons (by rw [render]; exact toList_enclose '\x7b' '\x7d' _ _) fun fuel rest hfuel _ ↦ ?_
    simp only [List.length_append, List.length_singleton] at hfuel
    have hpairs := readPairs_render hkeys (fun q hq ↦ h q hq (level + 1)) (blank_newline style level) fuel rest
      (by rw [renderPairs]; omega)
    refine readValue_map ?_
    rw [List.append_assoc, readPairs_congr (skipSpace_append (blank_newline style (level + 1)) _), List.append_assoc,
      List.append_assoc, List.singleton_append]
    exact hpairs

theorem Textual.readsBack (h : Textual d) (style : Style) (level : Nat) : ReadsBack style level d := by
  induction h generalizing level with
  | null => exact readsBack_constant (.inl rfl)
  | bool b => exact readsBack_constant (.inr ⟨b, rfl⟩)
  | int n => exact readsBack_int n
  | str s => exact readsBack_str s
  | list _ ih => exact readsBack_list ih
  | map hkeys _ ih => exact readsBack_map hkeys ih

end Values

/-- Whatever the style, data is read back from its text as it was. -/
theorem Textual.read?_write (h : Textual d) (style : Style) : read? (write style d) = some d := by
  have hread : readValue ((write style d).toList.length + 1) (write style d).toList = some (d, []) := by
    have := h.readsBack style 0 ((write style d).toList.length + 1) [] (Nat.le_succ _) (by simp [EndsNumber])
    rwa [List.append_nil] at this
  unfold read?
  simp only [hread]
  rfl

end Coverage.Json
