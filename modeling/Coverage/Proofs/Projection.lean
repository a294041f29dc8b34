import Coverage.Proofs.Projection.Walk

/-!
# Kinds are counted independently

Whether a kind of unit is counted has no effect on how the others are. A pass that counts only some kinds gives
the part of the record of a full pass that is about them, and the tree of the full pass without the code that
counts the rest.
-/

namespace Coverage.Pass

open Syntax

/-- The two passes start alike. -/
theorem linked_start (plan : Plan) (marks : Marks) (next : NodeId) (kept : Kind → Bool) :
    Linked next kept (start plan marks next) (start { plan with counts := kept } marks next) where
  next := Nat.le_refl _
  next' := Nat.le_refl _
  marks _ _ := rfl
  record :=
    { tidy := Metadata.tidy_empty _
      tidy' := Metadata.tidy_empty _
      keyed := by simp [start]
      entries := rfl
      groups := by simp [start] }

/-- If a pass that counts every kind is not stopped, neither is one that counts only the kept kinds. The entries of
the second are those of the first that are of a kept kind, its groups are those of the first unless no arms are
counted, and its tree is the first without the injected code of the kinds that are not kept. -/
theorem instrument_restricts {plan : Plan} {marks : Marks} {next : NodeId} {tree : Node} {i : Instrumented}
    (kept : Kind → Bool) (hall : ∀ kind, plan.counts kind = true) (hplaced : tree.placed = true)
    (hbelow : ∀ j ∈ tree.ids, j < next) (h : instrument plan marks next tree = .ok i) :
    ∃ i', instrument { plan with counts := kept } marks next tree = .ok i' ∧
      i'.record.entries = i.record.entries.filter (fun e ↦ kept e.kind) ∧
      i'.record.groups = (if kept .branch then i.record.groups else []) ∧
      i'.tree.view next everyKind = i.tree.view next kept := by
  obtain ⟨-, n, s, hrun, rfl⟩ := instrument_eq_ok.1 h
  obtain ⟨n', s', hrun', hlinked, halike⟩ :=
    twin hall tree ⟨hbelow, hplaced⟩ _ _ n s (linked_start plan marks next kept) hrun
  have hcheck : checkPlaces { plan with counts := kept } marks tree = .ok () := checkPlaces_of_placed tree hplaced
  refine ⟨finish n' s', instrument_eq_ok.2 ⟨hcheck, n', s', hrun', rfl⟩, hlinked.record.entries,
    hlinked.record.groups, ?_⟩
  exact (halike.view rfl rfl).symm

def guardedLoop : Node :=
  .mk 0 .module {} [.many
    [.mk 1 (.tryStmt false) ⟨some 1, some 0, some 5, some 5⟩
      [.many [.mk 2 .whileLoop ⟨some 2, some 1, some 3, some 6⟩
        [.child (.mk 3 .lambda ⟨some 2, some 7, some 2, some 16⟩
          [.child (.mk 4 (.plain .arguments) {}
            [.many [], .many [], .none, .many [], .many [], .none, .many []]),
            .child (.mk 5 (.plain .constant) (placeAt 2 15) [.constant (.int 1), .none])]),
          .many [.mk 6 (.plain .pass) ⟨some 3, some 2, some 3, some 6⟩ []], .many []]],
        .many [], .many [], .many [.mk 7 (.plain .pass) (placeAt 5 1) []]]],
    .many []]

/-- Only functions are counted in the loop. -/
theorem instrument_restricts_guardedLoop :
    ∃ i i', instrument { filename := "m.py" } {} 8 guardedLoop = .ok i ∧
      instrument { filename := "m.py", counts := (· == .function) } {} 8 guardedLoop = .ok i' ∧
      i'.record.entries = i.record.entries.filter (fun e ↦ e.kind == .function) ∧ i'.record.groups = [] ∧
      i'.tree.view 8 everyKind = i.tree.view 8 (· == .function) := by
  obtain ⟨i, h⟩ : ∃ i, instrument { filename := "m.py" } {} 8 guardedLoop = .ok i :=
    exists_ok_of_toBool (by decide +kernel)
  obtain ⟨i', h', hentries, hgroups, htree⟩ :=
    instrument_restricts (· == .function) (fun _ ↦ rfl) (by decide) (by decide) h
  exact ⟨i, i', h, h', hentries, hgroups, htree⟩

end Coverage.Pass
