import Coverage.Proofs.Datum.Json
import Coverage.Proofs.Metadata.History
import Coverage.Proofs.Pass.Walk

/-!
# Records that are stored and restored

A record that is written as JSON text, read and checked again is the same as before as far as can be seen, and from then
on answers whatever it is asked as the one that was written would have, although one has an index and the other has
none. This is true of every record that is built or read and then grows, and so of the record of a pass, which grows
from an empty one. What was read before is read as exactly the same again, whatever form its numbers had.
-/

namespace Coverage

open Json (Textual)

/-! ## Text -/

theorem textual_object {pairs : List (String × Datum)} (h : ∀ p ∈ pairs, Textual p.2) : Textual (.object pairs) := by
  refine .map ?_ ?_
  · intro p hp
    obtain ⟨q, -, rfl⟩ := List.mem_map.1 hp
    exact ⟨q.1, rfl⟩
  · intro p hp
    obtain ⟨q, hq, rfl⟩ := List.mem_map.1 hp
    exact h q hq

theorem textual_intOrNull (n : Option Int) : Textual (intOrNull n) := by
  cases n with
  | none => exact .null
  | some n => exact .int n

theorem textual_list_map {α : Type} {f : α → Datum} (h : ∀ a, Textual (f a)) (as : List α) :
    Textual (.list (as.map f)) := by
  refine .list fun d hd ↦ ?_
  obtain ⟨a, -, rfl⟩ := List.mem_map.1 hd
  exact h a

theorem Span.textual_toDatum (s : Span) : Textual s.toDatum := by
  refine textual_object ?_
  simp [Textual.int]

theorem Group.textual_toDatum (g : Group) : Textual g.toDatum := by
  refine textual_object ?_
  simp [Textual.int, Textual.str, Span.textual_toDatum]

theorem Entry.textual_toDatum (e : Entry Kind) : Textual e.toDatum := by
  have hname : Textual ((e.name.map Datum.str).getD .null) := by
    cases e.name with
    | none => exact .null
    | some name => exact .str name
  refine textual_object ?_
  simp [Textual.str, Span.textual_toDatum, textual_intOrNull, hname]

theorem Metadata.textual_toDatum (m : Metadata Kind) : Textual m.toDatum := by
  refine textual_object ?_
  simp [Textual.str, textual_list_map Entry.textual_toDatum, textual_list_map Group.textual_toDatum]

/-! ## Storing and restoring -/

namespace Metadata

/-- A record can be stored and restored: it is read back from its data, and its data from text in any style. What comes
back holds the same, and answers whatever comes next as the record itself does. -/
structure RoundTrips (m : Metadata Kind) : Prop where
  text : ∀ style, Json.read? (Json.write style m.toDatum) = some m.toDatum
  restored : ∃ m', Metadata.read m.toDatum = .ok m' ∧ m'.filename = m.filename ∧ m'.entries = m.entries ∧
    m'.groups = m.groups ∧ m'.Interchangeable m

theorem InStep.roundTrips {m : Metadata Kind} (h : m.InStep) (harmed : m.Armed) : m.RoundTrips where
  text := m.textual_toDatum.read?_write
  restored := ⟨m.visible, read_toDatum harmed, rfl, rfl, rfl, (inStep_visible m).interchangeable h rfl⟩

theorem Made.roundTrips_after {start : Metadata Kind} (h : start.Made) (history : List (Request Kind)) :
    (start.after history).RoundTrips :=
  (h.inStep.after history).roundTrips (h.inStep.armed_after h.armed history)

end Metadata

/-! ## The record of a pass -/

namespace Pass

open Metadata

variable (plan : Plan) (m : Metadata Kind)

theorem grown_offer (event : Program.Event) (e : Entry Kind) : m.Grown (offer m event e).record := by
  unfold offer
  split <;> exact .add m e

theorem grown_offerArms (group : Int) (a : Nat) (arms : List (Program.Event × Span)) :
    m.Grown (offerArms group a arms m).record := by
  induction arms generalizing a m with
  | nil => exact .refl m
  | cons arm arms ih => exact (grown_offer m ..).trans (ih _ (a + 1))

theorem grown_enrol (site : Site) : m.Grown (enrol plan m site).record := by
  cases site with
  | unit event kind span name =>
    rw [enrol]
    split
    next => exact grown_offer m ..
    next => exact .refl m
  | fork construct span arms =>
    rw [enrol]
    split
    next =>
      split
      next => exact .refl m
      next group m' hgroup => exact (Grown.addGroup hgroup).trans (grown_offerArms m' ..)
    next => exact .refl m
  | quiet event => exact .refl m
  | silent i => exact .refl m

theorem grown_enrolAll (sites : List Site) : m.Grown (enrolAll plan m sites).record := by
  induction sites generalizing m with
  | nil => exact .refl m
  | cons site rest ih => exact (grown_enrol plan m site).trans (ih _)

/-- The record of a pass grows from an empty one. -/
theorem grown_instrument {plan : Plan} {marks : Marks} {next : Syntax.NodeId} {tree : Syntax.Node} {i : Instrumented}
    (htree : Identified next tree) (h : instrument plan marks next tree = .ok i) :
    Metadata.Grown { filename := plan.filename } i.record := by
  obtain ⟨_, -, -, hrecord, -⟩ := instrument_spec htree h
  rw [hrecord]
  exact grown_enrolAll plan _ _

end Pass

/-- Records can be stored and restored: those that were built or read and then grew, and those of passes. What is read
from any data is read again from its own. -/
theorem roundTrips_of_origin :
    (∀ start : Metadata Kind, start.Made → ∀ history, (start.after history).RoundTrips) ∧
    (∀ plan marks next tree i, Pass.Identified next tree → instrument plan marks next tree = .ok i →
      i.record.RoundTrips) ∧
    ∀ d m, Metadata.read d = .ok m → Metadata.read m.toDatum = .ok m := by
  refine ⟨fun start hstart history ↦ hstart.roundTrips_after history, fun plan marks next tree i htree h ↦ ?_,
    fun d m h ↦ ?_⟩
  · have hstart : ({ filename := plan.filename } : Metadata Kind).Made := .built (by simp)
    obtain ⟨history, hhistory⟩ := Pass.grown_instrument htree h
    rw [hhistory]
    exact hstart.roundTrips_after history
  · rw [Metadata.read_toDatum (Metadata.armed_of_read h), Metadata.visible_of_read h]

def passingLoop : Syntax.Node :=
  .mk 0 .module {} [.many
    [.mk 1 .whileLoop ⟨some 1, some 0, some 2, some 6⟩
      [.child (.mk 2 (.plain .constant) ⟨some 1, some 6, some 1, some 7⟩ [.constant (.int 0), .none]),
        .many [.mk 3 (.plain .pass) ⟨some 2, some 2, some 2, some 6⟩ []], .many []]],
    .many []]

/-- A group whose numbers are a truth value, a float and texts. -/
def laxGroup : Datum :=
  .object [("group_id", .bool true), ("construct_type", .str "if"), ("arms", .str " 2"),
    ("location", .object [("start_line", .float (.finite false 1 0)), ("start_column", .int 0),
      ("end_line", .str "1_0"), ("end_column", .int 4)])]

/-- A record with a history, one of a pass, and one that is read from lax data. -/
theorem roundTrips_of_origin_samples :
    (let e : Entry Kind := ⟨"k\n😀", .branch, ⟨1, 0, 1, 4⟩, some 0, some 0, none⟩
      let start : Metadata Kind := { filename := "é.py", entries := [e, e], groups := [⟨7, .ifChain, 2, ⟨1, 0, 2, 4⟩⟩] }
      (start.after [.get "k", .addGroup .tryBody 2 ⟨3, 0, 4, 4⟩, .add { e with key := "l" }]).RoundTrips) ∧
    (∃ i, instrument { filename := "m.py" } {} 4 passingLoop = .ok i ∧ i.record.RoundTrips) ∧
    let m : Metadata Kind := { filename := "m.py", groups := [⟨1, .ifChain, 2, ⟨1, 0, 10, 4⟩⟩] }
    Metadata.read (.object [("filename", .str "m.py"), ("groups", .list [laxGroup])]) = .ok m ∧
      Metadata.read m.toDatum = .ok m := by
  obtain ⟨hmade, hpass, hread⟩ := roundTrips_of_origin
  refine ⟨hmade _ (.built (by decide)) _, ?_, ?_⟩
  · obtain ⟨i, h⟩ : ∃ i, instrument { filename := "m.py" } {} 4 passingLoop = .ok i :=
      exists_ok_of_toBool (by decide +kernel)
    exact ⟨i, h, hpass _ _ _ _ i ⟨by decide, by decide⟩ h⟩
  · intro m
    have hm : Metadata.read (.object [("filename", .str "m.py"), ("groups", .list [laxGroup])]) = .ok m := rfl
    exact ⟨hm, hread _ m hm⟩

end Coverage
