import Coverage.Proofs.Sharing.Walk
import Coverage.Proofs.Span

/-!
# Keys can be read

The kind and the four numbers of a unit can be read off its key, whatever the numbers are: a number goes as far as
there are digits, and a dash in front of a digit is a sign if no number has been read before it. So a key belongs to one
kind and one span. During a pass every entry is offered under the key of its kind and span, so the record refuses it
exactly if an entry of the same kind and span came before.
-/

namespace Coverage

/-! ## Reading -/

/-- The number that the digits in front of a text stand for, and the rest of the text. -/
def readNat? (text : List Char) : Option (Nat × List Char) :=
  if (text.takeWhile Char.isDigit).isEmpty then none
  else some (Nat.ofDigitChars 10 (text.takeWhile Char.isDigit) 0, text.dropWhile Char.isDigit)

/-- The number in front of a text, which can have a sign, and the rest of the text. -/
def readInt? : List Char → Option (Int × List Char)
  | '-' :: text => (readNat? text).map fun r ↦ (-(r.1 : Int), r.2)
  | text => (readNat? text).map fun r ↦ ((r.1 : Int), r.2)

/-- The text behind a separator. -/
def skip? (c : Char) : List Char → Option (List Char)
  | d :: text => if d = c then some text else none
  | [] => none

def readSpan? (text : List Char) : Option Span := do
  let (startLine, text) ← readInt? text
  let text ← skip? ':' text
  let (startColumn, text) ← readInt? text
  let text ← skip? '-' text
  let (endLine, text) ← readInt? text
  let text ← skip? ':' text
  let (endColumn, text) ← readInt? text
  if text.isEmpty then return ⟨startLine, startColumn, endLine, endColumn⟩ else none

def readKey? (key : Key) : Option (Kind × Span) := do
  return (← kindOf? key, ← readSpan? key.toList.tail)

/-- The text does not start with a digit. -/
def EndsNumber (text : List Char) : Prop := ∀ c ∈ text.head?, c.isDigit = false

/-- A number is read up to where its digits end. -/
theorem readNat?_append (n : Nat) {text : List Char} (htext : EndsNumber text) :
    readNat? (n.repr.toList ++ text) = some (n, text) := by
  have hdigits : ∀ c ∈ n.repr.toList, c.isDigit = true := by
    intro c hc
    rw [Nat.toList_repr] at hc
    exact Nat.isDigit_of_mem_toDigits (by decide) (by decide) hc
  have htake : text.takeWhile Char.isDigit = [] ∧ text.dropWhile Char.isDigit = text := by
    cases text with
    | nil => exact ⟨rfl, rfl⟩
    | cons c text => simp [htext c (by simp)]
  have hread : Nat.ofDigitChars 10 n.repr.toList 0 = n := by
    rw [Nat.toList_repr, Nat.ofDigitChars_toDigits (by decide) (by decide)]
  rw [readNat?, List.takeWhile_append_of_pos hdigits, List.dropWhile_append_of_pos hdigits, htake.1, htake.2,
    List.append_nil, hread, if_neg (by simp)]

theorem readInt?_append (n : Int) {text : List Char} (htext : EndsNumber text) :
    readInt? ((toString n).toList ++ text) = some (n, text) := by
  cases n with
  | ofNat n =>
    have hshow : (toString (Int.ofNat n)).toList = n.repr.toList := rfl
    rw [hshow, readInt?, readNat?_append n htext]
    · rfl
    · exact fun _ ↦ repr_ne_dash
  | negSucc n =>
    rw [toList_negSucc, List.cons_append, readInt?, readNat?_append (n + 1) htext]
    rfl

theorem endsNumber_nil : EndsNumber [] := by simp [EndsNumber]

theorem endsNumber_cons {c : Char} (hc : c.isDigit = false) (text : List Char) : EndsNumber (c :: text) := by
  intro d hd
  cases hd
  exact hc

@[simp]
theorem skip?_cons (c : Char) (text : List Char) : skip? c (c :: text) = some text := if_pos rfl

/-- A span is read back from its text. -/
theorem readSpan?_text (span : Span) : readSpan? span.text.toList = some span := by
  have hlast : readInt? (toString span.endColumn).toList = some (span.endColumn, []) := by
    rw [← List.append_nil (toString span.endColumn).toList, readInt?_append _ endsNumber_nil]
  have hcolon : ∀ n text, readInt? ((toString n).toList ++ ':' :: text) = some (n, ':' :: text) :=
    fun n text ↦ readInt?_append n (endsNumber_cons (by decide) text)
  have hdash : ∀ n text, readInt? ((toString n).toList ++ '-' :: text) = some (n, '-' :: text) :=
    fun n text ↦ readInt?_append n (endsNumber_cons (by decide) text)
  rw [toList_text, readSpan?]
  simp only [hcolon, hdash, hlast, skip?_cons, Option.bind_eq_bind, Option.bind_some]
  rfl

/-- Reading a key gives back what it was made of. -/
theorem readKey?_keyOf (kind : Kind) (span : Span) : readKey? (keyOf kind span) = some (kind, span) := by
  have htail : (keyOf kind span).toList.tail = span.text.toList := by
    rw [toList_keyOf]
    cases kind <;> rfl
  rw [readKey?, kindOf_keyOf, htail, readSpan?_text]
  rfl

theorem keyOf_eq_iff {kind kind' : Kind} {span span' : Span} :
    keyOf kind span = keyOf kind' span' ↔ kind = kind' ∧ span = span' := by
  refine ⟨keyOf_inj, ?_⟩
  rintro ⟨rfl, rfl⟩
  rfl

/-! ## Refusals -/

namespace Metadata

variable {m : Metadata Kind}

/-- Every entry has the key of its kind and span. -/
def Keyed (m : Metadata Kind) : Prop := ∀ e ∈ m.entries, e.key = keyOf e.kind e.span

theorem InStep.keyed_serve (h : m.InStep) (hm : m.Keyed) {r : Request Kind} (hr : r.Registers) :
    (m.serve r).2.Keyed := by
  obtain heq | ⟨e, hadd, heq⟩ | ⟨construct, arms, span, -, -, heq⟩ := h.visible_serve r
  all_goals rw [show (m.serve r).2.Keyed ↔ (m.serve r).2.visible.Keyed from Iff.rfl, heq]
  · exact hm
  · have hkey : e.key = keyOf e.kind e.span := by
      rcases hadd with rfl | ⟨rfl, -⟩
      · exact hr.elim
      · exact hr
    intro e' he'
    rcases List.mem_append.1 he' with he' | he'
    · exact hm e' he'
    · rw [List.mem_singleton.1 he', hkey]
  · exact hm

theorem InStep.keyed_after (h : m.InStep) (hm : m.Keyed) {requests : List (Request Kind)}
    (hrequests : ∀ r ∈ requests, r.Registers) : (m.after requests).Keyed := by
  induction requests generalizing m with
  | nil => exact hm
  | cons r requests ih =>
    obtain ⟨hr, hrequests⟩ := List.forall_mem_cons.1 hrequests
    exact ih (h.serve r) (h.keyed_serve hm hr) hrequests

/-- Where every key is that of a kind and a span, only an entry of the same kind and span stands in the way. -/
theorem InStep.add_eq_false_iff (h : m.InStep) (hm : m.Keyed) {e : Entry Kind} (he : e.key = keyOf e.kind e.span) :
    (m.add e).1 = false ↔ ∃ e' ∈ m.entries, e'.kind = e.kind ∧ e'.span = e.span := by
  have hkeys : e.key ∈ m.keys ↔ ∃ e' ∈ m.entries, e'.kind = e.kind ∧ e'.span = e.span := by
    rw [keys, List.mem_map]
    refine exists_congr fun e' ↦ and_congr_right fun he' ↦ ?_
    rw [hm e' he', he, keyOf_eq_iff]
  rw [← hkeys]
  by_cases htaken : e.key ∈ m.keys
  · simp [h.add_of_mem htaken, htaken]
  · simp [h.add_of_not_mem htaken, htaken]

end Metadata

namespace Pass

open Metadata

/-- The record of a pass and its refusals come from its requests. -/
theorem trail_instrument {plan : Plan} {marks : Marks} {next : Syntax.NodeId} {tree : Syntax.Node} {i : Instrumented}
    {requests : List (Request Kind)} (h : instrument plan marks next tree = .ok i)
    (htrail : Trail (start plan marks next) requests (outcome (visit plan tree) (start plan marks next)).2) :
    i.record = (start plan marks next).record.after requests ∧
      refusals i.notes = (start plan marks next).record.refusedKeys requests := by
  obtain ⟨-, n, s, hrun, rfl⟩ := instrument_eq_ok.1 h
  rw [hrun] at htrail
  refine ⟨htrail.record, ?_⟩
  rw [← List.nil_append (refusedKeys _ requests)]
  refine Eq.trans ?_ htrail.refused
  simp [finish, refusals]

/-- Keys are the same exactly if kind and span are, and both can be read off a key. In any pass, whether it is stopped
or not, the record is asked to add entries and groups, and it refuses an entry exactly if it has one of the same kind
and span by then. The refused keys are those that the pass remarks. -/
theorem keys_tell_units_apart :
    (∀ kind kind' span span', keyOf kind span = keyOf kind' span' ↔ kind = kind' ∧ span = span') ∧
    (∀ kind span, readKey? (keyOf kind span) = some (kind, span)) ∧
    ∀ plan marks next tree, ∃ requests,
      Trail (start plan marks next) requests (outcome (visit plan tree) (start plan marks next)).2 ∧
      (∀ i, instrument plan marks next tree = .ok i →
        i.record = (start plan marks next).record.after requests ∧
          refusals i.notes = (start plan marks next).record.refusedKeys requests) ∧
      ∀ earlier e later, requests = earlier ++ .add e :: later →
        ((((start plan marks next).record.after earlier).add e).1 = false ↔
          ∃ e' ∈ ((start plan marks next).record.after earlier).entries, e'.kind = e.kind ∧ e'.span = e.span) := by
  refine ⟨fun _ _ _ _ ↦ keyOf_eq_iff, readKey?_keyOf, fun plan marks next tree ↦ ?_⟩
  obtain ⟨requests, htrail⟩ := (moves_visit plan tree (start plan marks next)).trail
  refine ⟨requests, htrail, fun i hi ↦ trail_instrument hi htrail, ?_⟩
  rintro earlier e later rfl
  have hearlier : ∀ r ∈ earlier, r.Registers := fun r hr ↦ htrail.registers r (List.mem_append_left _ hr)
  have he : e.key = keyOf e.kind e.span := htrail.registers (.add e) (by simp)
  have hstart : (start plan marks next).record.InStep := inStep_visible (start plan marks next).record
  have hkeyed : (start plan marks next).record.Keyed := by simp [Keyed, start]
  exact (hstart.after earlier).add_eq_false_iff (hstart.keyed_after hkeyed hearlier) he

/-- Two statements with the same range. -/
def twinStatements : Syntax.Node :=
  .mk 0 .module {} [.many
    [.mk 1 (.plain .pass) ⟨some 1, some 0, some 1, some 4⟩ [],
      .mk 2 (.plain .pass) ⟨some 1, some 0, some 1, some 4⟩ []],
    .many []]

/-- A key with signs, and a pass that offers two statements under one key. -/
theorem keys_tell_units_apart_of_twins :
    readKey? "f-1:-2--3:40" = some (.function, ⟨-1, -2, -3, 40⟩) ∧
    ∃ i requests, instrument { filename := "m.py" } {} 3 twinStatements = .ok i ∧
      i.record = ({ filename := "m.py" } : Metadata Kind).after requests ∧
      ({ filename := "m.py" } : Metadata Kind).refusedKeys requests = ["s1:0-1:4"] := by
  obtain ⟨-, hread, hpass⟩ := keys_tell_units_apart
  have hkey : keyOf .function ⟨-1, -2, -3, 40⟩ = "f-1:-2--3:40" := by decide +kernel
  refine ⟨hkey ▸ hread .function ⟨-1, -2, -3, 40⟩, ?_⟩
  obtain ⟨requests, -, hok, -⟩ := hpass { filename := "m.py" } {} 3 twinStatements
  have hrefused : (instrument { filename := "m.py" } {} 3 twinStatements).toOption.map (refusals ·.notes) =
      some ["s1:0-1:4"] := by decide +kernel
  obtain ⟨i, h, hrefused⟩ := exists_ok_of_map hrefused
  obtain ⟨hrecord, hkeys⟩ := hok i h
  exact ⟨i, requests, h, hrecord, hkeys.symm.trans hrefused⟩

end Pass

end Coverage
