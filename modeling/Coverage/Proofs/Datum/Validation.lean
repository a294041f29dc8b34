import Mathlib.Data.List.Forall2
import Coverage.Datum.Validation

/-!
# What a schema accepts

A reading succeeds exactly if all its parts do, so a value that a schema accepts can be taken apart field by field and
item by item, and a value that is put together from accepted parts is accepted.
-/

namespace Coverage.Reading

variable {α β : Type} {read : Datum → Reading α} {pairs : List (Datum × Datum)} {name : String} {d : Datum} {a : α}

theorem map_eq_ok {f : α → β} {x : Reading α} {b : β} : x.map f = .ok b ↔ ∃ a, x = .ok a ∧ f a = b := by
  cases x <;> simp [Except.map]

theorem under_eq_ok {step : PathStep} {x : Reading α} : under step x = .ok a ↔ x = .ok a := by
  cases x <;> simp [under]

theorem both_eq_ok {x : Reading α} {y : Reading β} {p : α × β} : both x y = .ok p ↔ x = .ok p.1 ∧ y = .ok p.2 := by
  cases x <;> cases y <;> simp [both, Prod.ext_iff]

theorem model_eq_ok {read : List (Datum × Datum) → Reading α} :
    model read d = .ok a ↔ ∃ pairs, d = .map pairs ∧ read pairs = .ok a := by
  cases d <;> simp [model, fail]

theorem field_eq_ok : field name read pairs = .ok a ↔ ∃ d, Datum.lookup name pairs = some d ∧ read d = .ok a := by
  rw [field, under_eq_ok]
  cases Datum.lookup name pairs <;> simp [fail]

theorem fieldOr_eq_ok {default : α} : fieldOr name default read pairs = .ok a ↔
    (∃ d, Datum.lookup name pairs = some d ∧ read d = .ok a) ∨ (Datum.lookup name pairs = none ∧ a = default) := by
  rw [fieldOr, under_eq_ok]
  cases Datum.lookup name pairs <;> simp [eq_comm]

/-- A list is read if each item is. -/
theorem items_eq_ok {i : Nat} {ds : List Datum} {as : List α} :
    items read i ds = .ok as ↔ List.Forall₂ (fun d a ↦ read d = .ok a) ds as := by
  induction ds generalizing i as with
  | nil => cases as <;> simp [items]
  | cons d ds ih =>
    rw [items, map_eq_ok]
    constructor
    · rintro ⟨⟨b, bs⟩, hboth, rfl⟩
      obtain ⟨hb, hbs⟩ := both_eq_ok.1 hboth
      exact .cons (under_eq_ok.1 hb) (ih.1 hbs)
    · rintro (_ | ⟨hb, hbs⟩)
      exact ⟨(_, _), both_eq_ok.2 ⟨under_eq_ok.2 hb, ih.2 hbs⟩, rfl⟩

theorem list_eq_ok {as : List α} :
    list read d = .ok as ↔ ∃ ds, d = .list ds ∧ List.Forall₂ (fun d a ↦ read d = .ok a) ds as := by
  cases d <;> simp [list, fail, items_eq_ok]

/-- What is true of every item that is read is true of all items of a list. -/
theorem forall_of_list_eq_ok {P : α → Prop} (hread : ∀ d a, read d = .ok a → P a) {as : List α}
    (h : list read d = .ok as) : ∀ a ∈ as, P a := by
  obtain ⟨ds, -, hall⟩ := list_eq_ok.1 h
  clear h
  induction hall with
  | nil => simp
  | cons hd _ ih => exact List.forall_mem_cons.2 ⟨hread _ _ hd, ih⟩

end Coverage.Reading
