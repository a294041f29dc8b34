import Coverage.Proofs.Repeat.Left

/-!
# Passes over trees that have had one

A second pass with the marks of the first finds nothing to do. This holds of every block of the tree that a
pass gives, wherever it is put, and whatever is counted by the second pass. It holds of the tree itself unless
its root is of a class that only the block around it marks.
-/

namespace Coverage.Pass

open Syntax

variable {plan plan' : Plan} {marks : Marks} {full : Bool} {cat : Category} {next : NodeId} {tree : Node}
  {i : Instrumented}

/-- What a pass gives is what the walk leaves, with all places filled in. -/
theorem left_of_instrument (hgrammar : tree.isA full cat = true) (htree : Identified next tree)
    (h : instrument plan marks next tree = .ok i) :
    ∃ n, i.tree = n.fillPlaces .start ∧ Left plan marks next i.marks tree n ∧
      (marks.holds tree = true → i.marks.holds tree = true) := by
  obtain ⟨n, hwoven, hfilled, -⟩ := instrument_spec htree h
  refine ⟨n, hfilled, hwoven.left hgrammar htree.below, fun held ↦ ?_⟩
  rw [(hwoven.of_holds held).2.holds, held]

/-- A block of the tree that a pass over a module gives stays as it is. A second pass over a module that holds
the block alone leaves it alone, whatever it is asked to count, if the same lines are excluded. -/
theorem leavesAlone_block_instrument {next' j k : NodeId} {place place' : Place} {fs : List Field}
    {block : List Node} (hgrammar : (Node.mk j .module place fs).isA full .root = true)
    (htree : Identified next (.mk j .module place fs))
    (h : instrument plan {} next (.mk j .module place fs) = .ok i) (hblock : block ∈ blocks plan {} next i.tree)
    (hexcluded : plan'.excluded = plan.excluded) (hfresh : i.marks.contains k = false) :
    ∃ r, instrument plan' i.marks next' (.mk k .module place' [.many block, .many []]) = .ok r ∧
      LeavesAlone (.mk k .module place' [.many block, .many []]) (i.marks.mark k) r := by
  obtain ⟨n, hfilled, hleft, -⟩ := left_of_instrument hgrammar htree h
  have hsettled : settled plan i.marks true block = true := by
    rw [hfilled] at hblock
    exact Closed.fillPlaces .start n hleft.closed block hblock
  have hplaced : nodesPlaced block = true := by
    rw [hfilled] at hblock
    exact placed_of_mem_blocks _ (placed_fillPlaces rfl n) hblock
  exact instrument_of_settled next' k place' hexcluded hsettled hplaced hfresh

/-- A docstring, a `try` with a handler, and a statement on the excluded line 6. -/
def guardedModule : Node :=
  .mk 0 .module {} [.many
    [.mk 1 (.plain .exprStmt) (placeAt 1 0)
      [.child (.mk 2 (.plain .constant) (placeAt 1 0) [.constant (.str "doc"), .none])],
      .mk 3 (.tryStmt false) ⟨some 2, some 0, some 5, some 8⟩
        [.many [.mk 4 (.plain .pass) (placeAt 3 4) []],
          .many [.mk 5 .handler ⟨some 4, some 0, some 5, some 8⟩
            [.none, .none, .many [.mk 6 (.plain .pass) (placeAt 5 4) []]]], .many [], .many []],
      .mk 7 (.plain .pass) (placeAt 6 0) []],
    .many []]

/-- A module with a `try`. -/
theorem leavesAlone_block_instrument_guardedModule :
    ∃ i block, instrument { filename := "m.py", excluded := [6] } {} 8 guardedModule = .ok i ∧
      block ∈ blocks { filename := "m.py", excluded := [6] } {} 8 i.tree ∧
      ∃ r, instrument { filename := "n.py", globalName := "hits", excluded := [6] } i.marks 100
          (.mk 99 .module {} [.many block, .many []]) = .ok r ∧
        LeavesAlone (.mk 99 .module {} [.many block, .many []]) (i.marks.mark 99) r := by
  have hfacts : (instrument { filename := "m.py", excluded := [6] } {} 8 guardedModule).toOption.map
      (fun i ↦ ((blocks { filename := "m.py", excluded := [6] } {} 8 i.tree).length, i.marks.contains 99)) =
        some (4, false) := by decide +kernel
  have hgrammar : guardedModule.isA true .root = true := by decide +kernel
  obtain ⟨i, h, hfacts⟩ := exists_ok_of_map hfacts
  obtain ⟨hlength, hnone⟩ := Prod.mk.inj hfacts
  obtain ⟨block, hblock⟩ := List.exists_mem_of_length_pos (Nat.lt_of_lt_of_eq (Nat.zero_lt_succ 3) hlength.symm)
  exact ⟨i, block, h, hblock, leavesAlone_block_instrument hgrammar ⟨by decide, by decide⟩ h hblock rfl hnone⟩

/-- A second pass over the tree that a pass gives leaves it alone, if the root is marked beforehand or is not of
a class that only the block around it marks. -/
theorem leavesAlone_instrument_again (hgrammar : tree.isA full cat = true) (htree : Identified next tree)
    (hroot : tree.markedByBlock = false ∨ marks.holds tree = true)
    (h : instrument plan marks next tree = .ok i) :
    ∃ r, instrument plan i.marks i.next i.tree = .ok r ∧ LeavesAlone i.tree i.marks r := by
  obtain ⟨n, hfilled, hleft, hkept⟩ := left_of_instrument hgrammar htree h
  have hrests : Rests plan i.marks n := by
    rcases hroot with hroot | hroot
    · exact hleft.rests hroot
    · have held : i.marks.holds n = true := (hleft.holds i.marks).trans (hkept hroot)
      cases n with
      | gap => cases held
      | mk j c p fs => exact .marked held
  rw [hfilled]
  exact instrument_of_rests i.next rfl (hrests.fillPlaces .start) (placed_fillPlaces rfl n)

/-- A loop in a `with` statement that is not in a module. -/
def loneWith : Node :=
  .mk 0 (.plain .withStmt) ⟨some 1, some 0, some 3, some 8⟩
    [.many [.mk 1 (.plain .withItem) {}
      [.child (.mk 2 (.plain .constant) (placeAt 1 5) [.constant .none, .none]), .none]],
      .many [.mk 3 .whileLoop ⟨some 2, some 2, some 3, some 8⟩
        [.child (.mk 4 (.plain .constant) (placeAt 2 8) [.constant (.bool false), .none]),
          .many [.mk 5 (.plain .pass) (placeAt 3 4) []], .many []]], .none]

/-- A `with` that is not in a block. -/
theorem leavesAlone_instrument_again_loneWith :
    ∃ i, instrument { filename := "m.py" } {} 6 loneWith = .ok i ∧
      ∃ r, instrument { filename := "m.py" } i.marks i.next i.tree = .ok r ∧ LeavesAlone i.tree i.marks r := by
  obtain ⟨i, h⟩ : ∃ i, instrument { filename := "m.py" } {} 6 loneWith = .ok i :=
    exists_ok_of_toBool (by decide +kernel)
  have hgrammar : loneWith.isA true .statement = true := by decide +kernel
  exact ⟨i, h, leavesAlone_instrument_again hgrammar ⟨by decide, by decide⟩ (.inl rfl) h⟩

/-- A loop that is not in a block. -/
def loneLoop : Node :=
  .mk 0 .whileLoop ⟨some 1, some 0, some 2, some 8⟩
    [.child (.mk 1 (.plain .name) (placeAt 1 6) [.text "a", .child (.mk 2 (.plain .load) {} [])]),
      .many [.mk 3 (.plain .pass) ⟨some 2, some 4, some 2, some 8⟩ []], .many []]

/-- No block marks the loop, so a second pass counts its arms again. -/
theorem loneLoop_counted_again :
    ∃ i r, instrument { filename := "f.py" } {} 4 loneLoop = .ok i ∧
      instrument { filename := "f.py" } i.marks i.next i.tree = .ok r ∧
      r.record.groups.length = 1 ∧ r.marks ≠ i.marks := by
  have hfacts : (instrument { filename := "f.py" } {} 4 loneLoop).toOption.bind (fun i ↦
      (instrument { filename := "f.py" } i.marks i.next i.tree).toOption.map fun r ↦
        (r.record.groups.length, decide (r.marks = i.marks))) = some (1, false) := by decide +kernel
  cases h : instrument { filename := "f.py" } {} 4 loneLoop with
  | error stopped =>
    rw [h] at hfacts
    cases hfacts
  | ok i =>
    have hfacts : (instrument { filename := "f.py" } i.marks i.next i.tree).toOption.map (fun r ↦
        (r.record.groups.length, decide (r.marks = i.marks))) = some (1, false) := by
      rw [h] at hfacts
      exact hfacts
    obtain ⟨r, hagain, hfacts⟩ := exists_ok_of_map hfacts
    have hfacts := Prod.mk.inj hfacts
    exact ⟨i, r, rfl, hagain, hfacts.1, of_decide_eq_false hfacts.2⟩

end Coverage.Pass
