import Coverage.Proofs.Check.Walk
import Coverage.Proofs.Syntax.Places

/-!
# Passes that are stopped

The check comes first so that a pass that is stopped leaves the tree and the marks as they were. This holds if
every node whose place the walk needs is looked at by the check, or has its place anyway: then only the check
stops the pass. It does not hold of a body that ends in an excluded statement without a place: the check does not
look at that statement, and the walk, which needs the span of the body, comes to it too late.
-/

namespace Coverage.Pass

open Syntax

variable {plan : Plan} {marks : Marks} {cat : Category} {next : NodeId} {tree : Node}

/-- The check covers the walk: what the walk needs of the nodes that the check does not look at is there. -/
def Covered (plan : Plan) (marks : Marks) (tree : Node) : Prop :=
  ∀ n ∈ needed plan marks tree, n ∈ checked plan marks tree ∨ n.located = true

/-- A pass over a covered, stocked tree of the grammar that passes the check is not stopped. -/
theorem instrument_ok_of_stocked (next : NodeId) {full : Bool} (hgrammar : tree.isA full cat = true)
    (hstocked : tree.stocked = true) (hcovered : Covered plan marks tree)
    (hcheck : checkPlaces plan marks tree = .ok ()) : ∃ i, instrument plan marks next tree = .ok i := by
  have henter : Enterable plan marks tree := by
    intro n hn
    rcases hcovered n hn with hchecked | hlocated
    · exact (checkPlaces_eq_ok tree).1 hcheck n hchecked
    · exact hlocated
  obtain ⟨n, s, hrun, -⟩ := runs_of_isA tree hgrammar hstocked henter (start plan marks next) fun _ hi ↦ hi
  exact ⟨finish n s, instrument_eq_ok.2 ⟨hcheck, n, s, hrun, rfl⟩⟩

theorem instrument_ok_of_check (next : NodeId) (hgrammar : tree.isA true cat = true)
    (hcovered : Covered plan marks tree)
    (hcheck : checkPlaces plan marks tree = .ok ()) : ∃ i, instrument plan marks next tree = .ok i :=
  instrument_ok_of_stocked next hgrammar (stocked_of_isA tree hgrammar) hcovered hcheck

/-- A pass over a covered tree of the grammar is stopped by the check or not at all, so a pass that is stopped
leaves the tree and the marks as they were. -/
theorem instrument_eq_error_iff {stopped : Stopped} (hgrammar : tree.isA true cat = true)
    (hcovered : Covered plan marks tree) :
    instrument plan marks next tree = .error stopped ↔
      ∃ cause, checkPlaces plan marks tree = .error cause ∧
        stopped = { fault := .unlocated cause, tree, marks, next } := by
  cases hcheck : checkPlaces plan marks tree with
  | ok u =>
    obtain ⟨i, hi⟩ := instrument_ok_of_check next hgrammar hcovered hcheck
    simp [hi]
  | error cause =>
    simp only [instrument, hcheck, Except.error.injEq, exists_eq_left']
    exact eq_comm

/-- A loop between two statements that lack their ends. The first of them is on the excluded line 1. -/
def endlessStatements : Node :=
  .mk 0 .module {} [.many
    [.mk 1 (.plain .pass) ⟨some 1, some 0, none, none⟩ [],
      .mk 2 .whileLoop ⟨some 2, some 0, some 3, some 8⟩
        [.child (.mk 3 (.plain .constant) (placeAt 2 6) [.constant (.bool false), .none]),
          .many [.mk 4 (.plain .pass) (placeAt 3 4) []], .many []],
      .mk 5 (.plain .pass) ⟨some 4, some 0, none, none⟩ []],
    .many []]

/-- A tree without end positions. -/
theorem instrument_eq_error_iff_endlessStatements :
    Covered { filename := "m.py", excluded := [1] } {} endlessStatements ∧
      instrument { filename := "m.py", excluded := [1] } {} 6 endlessStatements =
        .error { fault := .unlocated (.node (.plain .pass)), tree := endlessStatements, marks := {}, next := 6 } := by
  have hgrammar : endlessStatements.isA true .root = true := by decide +kernel
  have hlacking : (needed { filename := "m.py", excluded := [1] } {} endlessStatements).filter (!·.located) =
    [.mk 5 (.plain .pass) ⟨some 4, some 0, none, none⟩ []] := rfl
  have hcovered : Covered { filename := "m.py", excluded := [1] } {} endlessStatements := by
    intro n hn
    by_cases hlocated : n.located = true
    · exact .inr hlocated
    · obtain rfl : n = .mk 5 (.plain .pass) ⟨some 4, some 0, none, none⟩ [] := by
        rw [← List.mem_singleton, ← hlacking, List.mem_filter]
        exact ⟨hn, by simpa using hlocated⟩
      exact .inl (List.mem_of_mem_drop (i := 4) (List.mem_singleton.2 rfl))
  exact ⟨hcovered, (instrument_eq_error_iff hgrammar hcovered).2 ⟨_, rfl, rfl⟩⟩

/-- Two `if` statements. The body of the second is a statement on the excluded line 4 that lacks its end. -/
def tornModule : Node :=
  .mk 0 .module {} [.many
    [.mk 1 .ifStmt ⟨some 1, some 0, some 2, some 9⟩
        [.child (.mk 2 (.plain .name) (placeAt 1 3) [.text "b", .child (.mk 3 (.plain .load) {} [])]),
          .many [.mk 4 (.plain .assign) ⟨some 2, some 4, some 2, some 9⟩
            [.many [.mk 5 (.plain .name) (placeAt 2 4) [.text "x", .child (.mk 6 (.plain .store) {} [])]],
              .child (.mk 7 (.plain .constant) (placeAt 2 8) [.constant (.int 1), .none]), .none]],
          .many []],
      .mk 8 .ifStmt ⟨some 3, some 0, some 4, some 8⟩
        [.child (.mk 9 (.plain .name) (placeAt 3 3) [.text "a", .child (.mk 10 (.plain .load) {} [])]),
          .many [.mk 11 (.plain .pass) ⟨some 4, some 4, none, none⟩ []], .many []]],
    .many []]

/-- The pass has rewritten the first `if` when it finds that the body of the second has no span. -/
theorem tornModule_half_rewritten :
    ∃ stopped, instrument { filename := "f.py", excluded := [4] } {} 12 tornModule = .error stopped ∧
      stopped.fault = .unlocated (.node (.plain .pass)) ∧ stopped.tree ≠ tornModule ∧ stopped.marks ≠ {} := by
  have hfacts : (match instrument { filename := "f.py", excluded := [4] } {} 12 tornModule with
      | .error stopped =>
        some (stopped.fault, decide (stopped.tree.ids = tornModule.ids), decide (stopped.marks = {}))
      | .ok _ => none) = some (.unlocated (.node (.plain .pass)), false, false) := by decide +kernel
  cases h : instrument { filename := "f.py", excluded := [4] } {} 12 tornModule with
  | error stopped =>
    rw [h] at hfacts
    simp only [Option.some.injEq, Prod.mk.injEq, decide_eq_false_iff_not] at hfacts
    exact ⟨stopped, rfl, hfacts.1, fun heq ↦ hfacts.2.1 (congrArg Node.ids heq), hfacts.2.2⟩
  | ok i =>
    rw [h] at hfacts
    cases hfacts

end Coverage.Pass
