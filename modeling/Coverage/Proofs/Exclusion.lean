import Coverage.Config
import Coverage.Proofs.Steps

/-!
# Excluded lines and source lines

Positions in a syntax tree count the line ends of the grammar, while the lines in which an exclusion pattern is looked
for end at every line boundary of Unicode. Both countings agree on a text exactly if all line boundaries in it are line
ends of the grammar; then, and only then, exclusion goes by the source lines on which statements start. This holds for
every language of patterns; the second half needs patterns that find the boundaries that end no source line.
-/

namespace Coverage

open Syntax

namespace Text

/-- The lines of a text in which lines end at the characters that satisfy `isEnd`. A carriage return and the line feed
after it are one end, and nothing after the last end is no line. -/
inductive LinesOf (isEnd : Char → Bool) : List Char → List (List Char) → Prop
  | none : LinesOf isEnd [] []
  | last {line : List Char} (hline : ∀ c ∈ line, isEnd c = false) (hne : line ≠ []) : LinesOf isEnd line [line]
  | ended {line rest : List Char} {e : Char} {lines : List (List Char)} (hline : ∀ c ∈ line, isEnd c = false)
    (he : isEnd e = true) (hone : ¬(e = '\r' ∧ rest.head? = some '\n')) (hrest : LinesOf isEnd rest lines) :
    LinesOf isEnd (line ++ e :: rest) (line :: lines)
  | returned {line rest : List Char} {lines : List (List Char)} (hline : ∀ c ∈ line, isEnd c = false)
    (hrest : LinesOf isEnd rest lines) : LinesOf isEnd (line ++ '\r' :: '\n' :: rest) (line :: lines)

/-! ## Cutting -/

section Cutting

variable {isEnd isEnd' : Char → Bool} {c : Char} {cs line rest : List Char} {lines : List (List Char)}

theorem joinReturns_cons (h : ¬(c = '\r' ∧ cs.head? = some '\n')) : joinReturns (c :: cs) = c :: joinReturns cs := by
  rw [joinReturns]
  rintro rest rfl rfl
  exact h ⟨rfl, rfl⟩

theorem joinReturns_append (h : ∀ c ∈ line, c ≠ '\r') : joinReturns (line ++ rest) = line ++ joinReturns rest := by
  induction line with
  | nil => rfl
  | cons c line ih =>
    obtain ⟨hc, hline⟩ := List.forall_mem_cons.1 h
    rw [List.cons_append, joinReturns_cons fun hreturn ↦ hc hreturn.1, ih hline, List.cons_append]

theorem cutLines_of_line (h : ∀ c ∈ line, isEnd c = false) (hne : line ≠ []) : cutLines isEnd line = [line] := by
  induction line with
  | nil => exact absurd rfl hne
  | cons c line ih =>
    obtain ⟨hc, hline⟩ := List.forall_mem_cons.1 h
    rw [cutLines, hc, if_neg Bool.false_ne_true]
    cases line with
    | nil => rfl
    | cons d line => rw [ih hline nofun, pushLine]

theorem cutLines_append (h : ∀ c ∈ line, isEnd c = false) {e : Char} (he : isEnd e = true) :
    cutLines isEnd (line ++ e :: rest) = line :: cutLines isEnd rest := by
  induction line with
  | nil => rw [List.nil_append, cutLines, if_pos he]
  | cons c line ih =>
    obtain ⟨hc, hline⟩ := List.forall_mem_cons.1 h
    rw [List.cons_append, cutLines, hc, if_neg Bool.false_ne_true, ih hline, pushLine]

/-- A character that does not end a line belongs to the first one. -/
theorem LinesOf.push (h : LinesOf isEnd cs lines) (hc : isEnd c = false) :
    LinesOf isEnd (c :: cs) (pushLine c lines) := by
  cases h with
  | none => exact .last (by simpa using hc) nofun
  | last hline hne => exact .last (List.forall_mem_cons.2 ⟨hc, hline⟩) nofun
  | ended hline he hone hrest => exact .ended (List.forall_mem_cons.2 ⟨hc, hline⟩) he hone hrest
  | returned hline hrest => exact .returned (List.forall_mem_cons.2 ⟨hc, hline⟩) hrest

/-- Cutting a text gives its lines. -/
theorem linesOf_cutLines (hfeed : isEnd '\n' = true) (text : List Char) :
    LinesOf isEnd text (cutLines isEnd (joinReturns text)) := by
  induction text using joinReturns.induct with
  | case1 => exact .none
  | case2 cs ih =>
    rw [joinReturns, cutLines, if_pos hfeed]
    exact @LinesOf.returned isEnd [] cs _ nofun ih
  | case3 c cs hother ih =>
    have hone : ¬(c = '\r' ∧ cs.head? = some '\n') := by
      rintro ⟨rfl, hhead⟩
      cases cs with
      | nil => cases hhead
      | cons d cs =>
        cases hhead
        exact hother cs rfl rfl
    rw [joinReturns_cons hone, cutLines]
    split
    next hc => exact @LinesOf.ended isEnd [] cs c _ nofun hc hone ih
    next hc => exact ih.push (by simpa using hc)

/-- A text has only one list of lines. -/
theorem LinesOf.eq_cutLines (hreturn : isEnd '\r' = true) (hfeed : isEnd '\n' = true) (h : LinesOf isEnd cs lines) :
    lines = cutLines isEnd (joinReturns cs) := by
  have hplain {line : List Char} (hline : ∀ c ∈ line, isEnd c = false) : ∀ c ∈ line, c ≠ '\r' := by
    rintro c hc rfl
    rw [hline _ hc] at hreturn
    cases hreturn
  induction h with
  | none => rfl
  | @last line hline hne =>
    have hjoin := @joinReturns_append line [] (hplain hline)
    rw [List.append_nil, joinReturns, List.append_nil] at hjoin
    rw [hjoin, cutLines_of_line hline hne]
  | ended hline he hone _ ih =>
    rw [joinReturns_append (hplain hline), joinReturns_cons hone, cutLines_append hline he, ih]
  | returned hline _ ih =>
    rw [joinReturns_append (hplain hline), joinReturns, cutLines_append hline hfeed, ih]

/-! ## What stands in lines -/

/-- Only the characters of the text matter. -/
theorem LinesOf.congr (h : LinesOf isEnd cs lines) (hsame : ∀ c ∈ cs, isEnd c = isEnd' c) :
    LinesOf isEnd' cs lines := by
  induction h with
  | none => exact .none
  | last hline hne => exact .last (fun c hc ↦ hsame c hc ▸ hline c hc) hne
  | @ended line rest e lines hline he hone _ ih =>
    rw [List.forall_mem_append, List.forall_mem_cons] at hsame
    obtain ⟨hsame, heq, hrest⟩ := hsame
    exact .ended (fun c hc ↦ hsame c hc ▸ hline c hc) (heq ▸ he) hone (ih hrest)
  | @returned line rest lines hline _ ih =>
    rw [List.forall_mem_append, List.forall_mem_cons, List.forall_mem_cons] at hsame
    obtain ⟨hsame, -, -, hrest⟩ := hsame
    exact .returned (fun c hc ↦ hsame c hc ▸ hline c hc) (ih hrest)

theorem LinesOf.not_isEnd (h : LinesOf isEnd cs lines) : ∀ line ∈ lines, ∀ c ∈ line, isEnd c = false := by
  induction h with
  | none => nofun
  | last hline _ => exact List.forall_mem_singleton.2 hline
  | ended hline _ _ _ ih => exact List.forall_mem_cons.2 ⟨hline, ih⟩
  | returned hline _ ih => exact List.forall_mem_cons.2 ⟨hline, ih⟩

/-- No character is lost but those that end lines. -/
theorem LinesOf.exists_mem (h : LinesOf isEnd cs lines) (hreturn : isEnd '\r' = true) (hfeed : isEnd '\n' = true)
    (hc : c ∈ cs) (hplain : isEnd c = false) : ∃ line ∈ lines, c ∈ line := by
  have hne {e : Char} (he : isEnd e = true) : c ≠ e := by
    rintro rfl
    rw [hplain] at he
    cases he
  induction h with
  | none => cases hc
  | @last line _ _ => exact ⟨line, List.mem_singleton.2 rfl, hc⟩
  | @ended line rest e lines _ he _ _ ih =>
    rw [List.mem_append, List.mem_cons] at hc
    rcases hc with hc | hc | hc
    · exact ⟨line, List.mem_cons_self, hc⟩
    · exact absurd hc (hne he)
    · obtain ⟨other, hother, hc⟩ := ih hc
      exact ⟨other, List.mem_cons_of_mem _ hother, hc⟩
  | @returned line rest lines _ _ ih =>
    rw [List.mem_append, List.mem_cons, List.mem_cons] at hc
    rcases hc with hc | hc | hc | hc
    · exact ⟨line, List.mem_cons_self, hc⟩
    · exact absurd hc (hne hreturn)
    · exact absurd hc (hne hfeed)
    · obtain ⟨other, hother, hc⟩ := ih hc
      exact ⟨other, List.mem_cons_of_mem _ hother, hc⟩

end Cutting

end Text

/-! ## Matches -/

theorem Regex.searchFrom_char {c : Char} {before : Option Char} {line : List Char} :
    searchFrom (.char c.toNat) before line = true ↔ c ∈ line := by
  induction line generalizing before with
  | nil => simp [searchFrom, run, Cursor.step]
  | cons d line ih =>
    have hhere : (run (.char c.toNat) ⟨before, d :: line, []⟩ some).isSome = true ↔ d = c := by
      by_cases hd : d = c
      · simp [run, Cursor.step, hd]
      · have hcode : ¬d.toNat = c.toNat := fun heq ↦ hd (Char.ext (UInt32.toNat_inj.1 heq))
        simp [run, Cursor.step, hcode, hd]
    rw [searchFrom, Bool.or_eq_true, hhere, ih, List.mem_cons, eq_comm]

/-- The numbers of the lines in which something is found. -/
theorem mem_matchingLines {found : List Char → Bool} {first n : Nat} {lines : List (List Char)} :
    n ∈ matchingLines found first lines ↔
      ∃ k line, n = first + k ∧ lines[k]? = some line ∧ found line = true := by
  induction lines generalizing first with
  | nil => simp [matchingLines]
  | cons line lines ih =>
    have hcons : n ∈ matchingLines found first (line :: lines) ↔
        n = first ∧ found line = true ∨ n ∈ matchingLines found (first + 1) lines := by
      rw [matchingLines]
      split
      next h => simp [h]
      next h => simp [h]
    rw [hcons, ih]
    constructor
    · rintro (⟨rfl, hfound⟩ | ⟨k, other, rfl, hother, hfound⟩)
      · exact ⟨0, line, rfl, rfl, hfound⟩
      · exact ⟨k + 1, other, by omega, by simpa using hother, hfound⟩
    · rintro ⟨k, other, rfl, hother, hfound⟩
      cases k with
      | zero =>
        obtain rfl : line = other := by simpa using hother
        exact .inl ⟨rfl, hfound⟩
      | succ k => exact .inr ⟨k, other, by omega, by simpa using hother, hfound⟩

/-! ## Exclusion -/

/-- Line `n` of a text satisfies `found`, where lines end at the characters that satisfy `isEnd`. -/
def FoundIn (isEnd : Char → Bool) (source : String) (found : List Char → Bool) (n : Nat) : Prop :=
  ∃ lines line, Text.LinesOf isEnd source.toList lines ∧ 0 < n ∧ lines[n - 1]? = some line ∧ found line = true

/-- A plan excludes a statement exactly if it or a decorator starts on a line for which `p` holds. -/
def Plan.ExcludesOn (plan : Plan) (p : Nat → Prop) : Prop :=
  ∀ s : Node, plan.excludes s = true ↔
    ∃ n : Nat, (s.place.line = some (n : Int) ∨ ∃ d ∈ s.decorators, d.place.line = some (n : Int)) ∧ p n

/-- What is found in lines is excluded by the lines that end at the characters that satisfy `isEnd`: these lines are
excluded, and the statements that start on them under every configuration with a pattern for it. -/
structure ExcludesBy (isEnd : Char → Bool) (source : String) (found : List Char → Bool) : Prop where
  lines : ∀ n, n ∈ excludedLines (some source) (some found) ↔ FoundIn isEnd source found n
  statements : ∀ (language : PatternLanguage) (config : Config) (filename pattern : String),
    config.excludePattern = some (.text pattern) → language.compile pattern = .ok found →
      ∃ plan, config.plan filename (some source) language = .ok plan ∧ plan.ExcludesOn (FoundIn isEnd source found)

/-- Every line boundary that is no line end of the grammar can be looked for. -/
def PatternLanguage.FindsBoundaries (language : PatternLanguage) : Prop :=
  ∀ c, Text.isBoundary c = true → Text.isNewline c = false →
    ∃ pattern found, language.compile pattern = .ok found ∧ ∀ line, found line = true ↔ c ∈ line

section Exclusion

variable {isEnd : Char → Bool} {source : String} {found : List Char → Bool}

/-- Which lines are excluded. -/
theorem mem_excludedLines {n : Nat} :
    n ∈ excludedLines (some source) (some found) ↔ FoundIn Text.isBoundary source found n := by
  have hlines := Text.linesOf_cutLines (show Text.isBoundary '\n' = true by decide) source.toList
  rw [excludedLines, mem_matchingLines]
  constructor
  · rintro ⟨k, line, rfl, hline, hfound⟩
    refine ⟨_, line, hlines, by omega, ?_, hfound⟩
    rwa [Nat.add_sub_cancel_left]
  · rintro ⟨lines, line, hcut, hpos, hline, hfound⟩
    obtain rfl := hcut.eq_cutLines (by decide) (by decide)
    exact ⟨n - 1, line, by omega, hline, hfound⟩

theorem excludesLine_iff {plan : Plan} {line : Option Int} :
    plan.excludesLine line = true ↔ ∃ n : Nat, line = some (n : Int) ∧ n ∈ plan.excluded := by
  cases line with
  | none => simp [Plan.excludesLine]
  | some k =>
    simp only [Plan.excludesLine, List.any_eq_true, beq_iff_eq, Option.some.injEq]
    constructor
    · rintro ⟨n, hn, rfl⟩
      exact ⟨n, rfl, hn⟩
    · rintro ⟨n, rfl, hn⟩
      exact ⟨n, hn, rfl⟩

theorem Plan.excludesOn (plan : Plan) : plan.ExcludesOn (· ∈ plan.excluded) := by
  intro s
  simp only [Plan.excludes, Bool.or_eq_true, List.any_eq_true, excludesLine_iff]
  constructor
  · rintro (⟨n, hline, hn⟩ | ⟨d, hd, n, hline, hn⟩)
    · exact ⟨n, .inl hline, hn⟩
    · exact ⟨n, .inr ⟨d, hd, hline⟩, hn⟩
  · rintro ⟨n, hline | ⟨d, hd, hline⟩, hn⟩
    · exact .inl ⟨n, hline, hn⟩
    · exact .inr ⟨d, hd, n, hline, hn⟩

theorem Plan.excludes_of_nil {plan : Plan} (h : plan.excluded = []) (s : Node) : plan.excludes s = false := by
  rw [Bool.eq_false_iff, Ne, plan.excludesOn s, h]
  simp

/-- Statements are excluded by the lines by which lines are. -/
theorem ExcludesBy.of_lines
    (h : ∀ n, n ∈ excludedLines (some source) (some found) ↔ FoundIn isEnd source found n) :
    ExcludesBy isEnd source found where
  lines := h
  statements language config filename pattern hpattern hfound := by
    refine ⟨{ filename, globalName := config.globalName, counts := config.counts,
              excluded := excludedLines (some source) (some found) }, ?_, fun s ↦ ?_⟩
    · rw [Config.plan, Config.search, hpattern]
      simp only [hfound]
      rfl
    · simp only [Plan.excludesOn _ s, h]

/-- Source lines are Unicode lines unless some boundary between these does not end a source line. -/
theorem foundIn_isNewline_iff (h : ∀ c ∈ source.toList, Text.isBoundary c = true → Text.isNewline c = true) {n : Nat} :
    FoundIn Text.isBoundary source found n ↔ FoundIn Text.isNewline source found n := by
  have hsame : ∀ c ∈ source.toList, Text.isBoundary c = Text.isNewline c := by
    intro c hc
    rw [Bool.eq_iff_iff]
    refine ⟨h c hc, fun hnewline ↦ ?_⟩
    simp only [Text.isNewline, Bool.or_eq_true] at hnewline
    simp only [Text.isBoundary, hnewline, Bool.or_eq_true, true_or]
  constructor
  · rintro ⟨lines, line, hlines, hfound⟩
    exact ⟨lines, line, hlines.congr hsame, hfound⟩
  · rintro ⟨lines, line, hlines, hfound⟩
    exact ⟨lines, line, hlines.congr fun c hc ↦ (hsame c hc).symm, hfound⟩

/-- A boundary that does not end a source line and is looked for stands in some source line, but in no line between
two boundaries. -/
theorem not_excludesBy_isNewline {c : Char} (hfound : ∀ line, found line = true ↔ c ∈ line) (hc : c ∈ source.toList)
    (hboundary : Text.isBoundary c = true) (hplain : Text.isNewline c = false) :
    ¬ExcludesBy Text.isNewline source found := by
  intro h
  have hlines := Text.linesOf_cutLines (show Text.isNewline '\n' = true by decide) source.toList
  obtain ⟨line, hline, hcline⟩ := hlines.exists_mem (by decide) (by decide) hc hplain
  obtain ⟨k, hk⟩ := List.mem_iff_getElem?.1 hline
  have hhere : FoundIn Text.isNewline source found (k + 1) :=
    ⟨_, line, hlines, by omega, hk, (hfound line).2 hcline⟩
  obtain ⟨lines, piece, hcut, -, hpiece, hsearch⟩ := mem_excludedLines.1 ((h.lines _).2 hhere)
  have hno := hcut.not_isEnd piece (List.mem_of_getElem? hpiece) c ((hfound piece).1 hsearch)
  rw [hboundary] at hno
  cases hno

end Exclusion

/-- Exclusion goes by the lines between Unicode line boundaries, whatever is looked for. It goes by source lines in
those texts in which all such boundaries are line ends of the grammar, and only in those if the other boundaries can be
looked for. Without a pattern or a text nothing is excluded. -/
theorem exclusion_by_source_lines (source : String) :
    (∀ found, ExcludesBy Text.isBoundary source found) ∧
    ((∀ c ∈ source.toList, Text.isBoundary c = true → Text.isNewline c = true) →
      ∀ found, ExcludesBy Text.isNewline source found) ∧
    (∀ language : PatternLanguage, language.FindsBoundaries →
      (∀ pattern found, language.compile pattern = .ok found → ExcludesBy Text.isNewline source found) →
        ∀ c ∈ source.toList, Text.isBoundary c = true → Text.isNewline c = true) ∧
    ∀ (language : PatternLanguage) (config : Config) (filename : String),
      (config.excludePattern = none → ∃ plan, config.plan filename (some source) language = .ok plan ∧
        ∀ s, plan.excludes s = false) ∧
      ∀ plan s, config.plan filename none language = .ok plan → plan.excludes s = false := by
  refine ⟨fun found ↦ .of_lines fun n ↦ mem_excludedLines, ?_, ?_, fun language config filename ↦ ⟨?_, ?_⟩⟩
  · intro h found
    exact .of_lines fun n ↦ mem_excludedLines.trans (foundIn_isNewline_iff h)
  · intro language hfinds h c hc hboundary
    cases hplain : Text.isNewline c with
    | true => rfl
    | false =>
      obtain ⟨pattern, found, hcompile, hfound⟩ := hfinds c hboundary hplain
      exact absurd (h pattern found hcompile) (not_excludesBy_isNewline hfound hc hboundary hplain)
  · intro hpattern
    refine ⟨_, by rw [Config.plan, Config.search, hpattern]; rfl, fun s ↦ ?_⟩
    exact Plan.excludes_of_nil rfl s
  · intro plan s hplan
    obtain ⟨found, -, hplan⟩ := except_bind_eq_ok.1 hplan
    cases hplan
    exact Plan.excludes_of_nil rfl s

/-- Each boundary is a pattern that finds it. -/
theorem Regex.findsBoundaries_language : language.FindsBoundaries := by
  intro c hboundary hplain
  have hread : ∀ c ∈ ['\x0b', '\x0c', '\x1c', '\x1d', '\x1e', '\x85', '\u2028', '\u2029'],
      parse (String.singleton c) = .ok (.char c.toNat) := by
    simp only [List.forall_mem_cons, List.not_mem_nil, false_imp_iff, implies_true, and_true]
    exact ⟨rfl, rfl, rfl, rfl, rfl, rfl, rfl, rfl⟩
  have hc : c ∈ ['\x0b', '\x0c', '\x1c', '\x1d', '\x1e', '\x85', '\u2028', '\u2029'] := by
    simp only [Text.isNewline, Bool.or_eq_false_iff] at hplain
    simpa [Text.isBoundary, hplain, or_assoc] using hboundary
  refine ⟨String.singleton c, search (.char c.toNat), ?_, fun line ↦ searchFrom_char⟩
  simp only [language, hread c hc]
  rfl

/-- A text with all three line ends of the grammar, and one with another boundary. -/
theorem exclusion_by_source_lines_of_returns :
    (∀ found, ExcludesBy Text.isNewline "a = 1\r\nb = 2  # pragma: no cover\rc = 3\n" found) ∧
      ¬∀ pattern found, Regex.language.compile pattern = .ok found → ExcludesBy Text.isNewline "a\x0cb" found := by
  constructor
  · refine (exclusion_by_source_lines _).2.1 fun c hc hboundary ↦ ?_
    have hall : ("a = 1\r\nb = 2  # pragma: no cover\rc = 3\n".toList.all fun c ↦
        !Text.isBoundary c || Text.isNewline c) = true := by decide +kernel
    simpa [hboundary] using List.all_eq_true.1 hall c hc
  · intro h
    have hnewline := (exclusion_by_source_lines _).2.2.1 _ Regex.findsBoundaries_language h '\x0c' (by decide)
      (by decide)
    cases hnewline

/-- A form feed is no line end of the grammar: with one in front of it, the comment on the second source line excludes
the statement on the third. -/
theorem form_feed_moves_exclusion :
    let source := "a = 1\n\x0cb = 2  # pragma: no cover\nc = 3\n"
    let on (line : Int) : Node := .mk 0 (.plain .pass) { line := some line } []
    ∃ plan found, ({} : Config).plan "m.py" (some source) = .ok plan ∧
      Regex.language.compile usualPattern = .ok found ∧ plan.excludes (on 2) = false ∧ plan.excludes (on 3) = true ∧
      FoundIn Text.isNewline source found 2 ∧ ¬FoundIn Text.isNewline source found 3 := by
  intro source on
  have hexcludes : (({} : Config).plan "m.py" (some source)).toOption.map
      (fun plan ↦ (plan.excludes (on 2), plan.excludes (on 3))) = some (false, true) := by decide +kernel
  have hfacts : (Regex.language.compile usualPattern).toOption.map (fun found ↦ (Text.sourceLines source).map found) =
      some [false, true, false] := by decide +kernel
  obtain ⟨plan, hplan, hon⟩ := Option.map_eq_some_iff.1 hexcludes
  obtain ⟨found, hfound, hsearch⟩ := Option.map_eq_some_iff.1 hfacts
  have hlines := Text.linesOf_cutLines (show Text.isNewline '\n' = true by decide) source.toList
  refine ⟨plan, found, ok_of_toOption hplan, ok_of_toOption hfound, (Prod.mk.inj hon).1,
    (Prod.mk.inj hon).2, ?_, ?_⟩
  · have hsecond := congrArg (·[1]?) hsearch
    rw [List.getElem?_map] at hsecond
    obtain ⟨line, hline, hfound⟩ := Option.map_eq_some_iff.1 hsecond
    exact ⟨_, line, hlines, by decide, hline, hfound⟩
  · rintro ⟨lines, line, hcut, -, hline, hfound⟩
    obtain rfl := hcut.eq_cutLines (by decide) (by decide)
    have hthird := congrArg (·[2]?) hsearch
    rw [List.getElem?_map, show (Text.sourceLines source)[2]? = some line from hline] at hthird
    simp [hfound] at hthird

end Coverage
