import Coverage.Proofs.Metadata.History
import Coverage.Proofs.Pass.Primitive

/-!
# What a walk asks of the record

The record changes by requests only: entries are offered, each with the key of its kind and its span, and groups are
added. The keys of the offers that the record refuses are in the remarks of the pass, in the same order.
-/

namespace Coverage.Metadata

/-- The request offers an entry with the key of its kind and span, or adds a group. -/
def Request.Registers : Request Kind → Prop
  | .add e => e.key = keyOf e.kind e.span
  | .addGroup .. => True
  | _ => False

/-- The key of a request's entry if the record refuses it. -/
def refusedKey? (m : Metadata Kind) : Request Kind → Option Key
  | .add e => if (m.add e).1 then none else some e.key
  | _ => none

/-- The keys of the entries that a record refuses while it serves requests. -/
def refusedKeys (m : Metadata Kind) : List (Request Kind) → List Key
  | [] => []
  | r :: rs => (m.refusedKey? r).toList ++ (m.serve r).2.refusedKeys rs

theorem refusedKeys_append (m : Metadata Kind) (earlier later : List (Request Kind)) :
    m.refusedKeys (earlier ++ later) = m.refusedKeys earlier ++ (m.after earlier).refusedKeys later := by
  induction earlier generalizing m with
  | nil => rfl
  | cons r earlier ih =>
    rw [List.cons_append, refusedKeys, refusedKeys, ih, List.append_assoc]
    rfl

end Coverage.Metadata

namespace Coverage.Pass

open Syntax Metadata

/-! ## Trails -/

/-- From one state to another the record has served requests, and the keys that it refused have been remarked. -/
structure Trail (s : State) (requests : List (Request Kind)) (t : State) : Prop where
  record : t.record = s.record.after requests
  refused : refusals t.notes = refusals s.notes ++ s.record.refusedKeys requests
  registers : ∀ r ∈ requests, r.Registers

namespace Trail

variable {s t u : State} {requests requests' : List (Request Kind)}

theorem of_same (hrecord : t.record = s.record) (hnotes : refusals t.notes = refusals s.notes) : Trail s [] t :=
  ⟨hrecord, by simp [refusedKeys, hnotes], by simp⟩

theorem trans (h : Trail s requests t) (h' : Trail t requests' u) : Trail s (requests ++ requests') u where
  record := by rw [h'.record, h.record, after_append]
  refused := by rw [h'.refused, h.refused, h.record, refusedKeys_append, List.append_assoc]
  registers r hr := (List.mem_append.1 hr).elim (h.registers r) (h'.registers r)

/-- A refused entry is remarked, an accepted one is not. -/
theorem register {e : Entry Kind} (hkey : e.key = keyOf e.kind e.span) (s : State) :
    Trail s [.add e] (Pass.register e s).2 := by
  have hregisters : ∀ r ∈ [Request.add e], r.Registers := by
    intro r hr
    rw [List.mem_singleton.1 hr]
    exact hkey
  rw [register_eq]
  split
  next hadded => exact ⟨rfl, by simp [refusedKeys, refusedKey?, hadded], hregisters⟩
  next hrefused => exact ⟨rfl, by simp [refusedKeys, refusedKey?, hrefused, refusals], hregisters⟩

theorem addGroup {construct : Construct} {arms : Int} {span : Span} {g : Group} {record : Metadata Kind}
    (h : s.record.addGroup construct arms span = some (g, record)) :
    Trail s [.addGroup construct arms span] { s with record } where
  record := by simp [after, serve, h]
  refused := by simp [refusedKeys, refusedKey?]
  registers r hr := by
    rw [List.mem_singleton.1 hr]
    trivial

end Trail

end Coverage.Pass
