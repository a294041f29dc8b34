import Coverage.Pass
import Coverage.Proofs.Steps

/-!
# Steps of a pass that are not stopped

`Yields x s a s'` says that the step `x`, taken in the state `s`, is not stopped: it gives `a` and leads to
`s'`. A step that is built of others yields what they yield one after the other, so a fact about a whole
walk is read off its parts without looking into the monad.
-/

namespace Coverage.Pass

open Syntax

variable {ε ε' α β : Type} {s s' : State}

/-- The step gives `a` and leads to `s'`. -/
def Yields (x : ExceptT ε (StateM State) α) (s : State) (a : α) (s' : State) : Prop :=
  outcome x s = (.ok a, s')

@[simp]
theorem yields_pure {a b : α} : Yields (pure a : ExceptT ε (StateM State) α) s b s' ↔ a = b ∧ s = s' := by
  change ((Except.ok a : Except ε α), s) = (.ok b, s') ↔ _
  simp

/-- What a sequence of steps yields. -/
theorem yields_bind {x : ExceptT ε (StateM State) α} {f : α → ExceptT ε (StateM State) β} {b : β} :
    Yields (x >>= f) s b s' ↔ ∃ a t, Yields x s a t ∧ Yields (f a) t b s' := by
  unfold Yields
  rw [outcome_bind]
  rcases outcome x s with ⟨_ | a, t⟩
  · simp
  · constructor
    · intro h
      exact ⟨a, t, rfl, h⟩
    · rintro ⟨a', t', h, h'⟩
      obtain ⟨rfl, rfl⟩ : a = a' ∧ t = t' := by simpa using h
      exact h'

theorem not_yields_throw {e : ε} {a : α} : ¬Yields (throw e : ExceptT ε (StateM State) α) s a s' := by
  intro h
  have h : ((Except.error e : Except ε α), s) = (.ok a, s') := h
  simp at h

@[simp]
theorem yields_lift {x : StateM State α} {a : α} :
    Yields (liftM x : ExceptT ε (StateM State) α) s a s' ↔ (x s).1 = a ∧ (x s).2 = s' := by
  change ((Except.ok (x s).1 : Except ε α), (x s).2) = (.ok a, s') ↔ _
  simp

@[simp]
theorem yields_get {a : State} : Yields (get : ExceptT ε (StateM State) State) s a s' ↔ s = a ∧ s = s' := by
  change ((Except.ok s : Except ε State), s) = (.ok a, s') ↔ _
  simp

@[simp]
theorem yields_modify {f : State → State} {u : Unit} :
    Yields (modify f : ExceptT ε (StateM State) Unit) s u s' ↔ f s = s' := by
  change ((Except.ok () : Except ε Unit), f s) = (.ok u, s') ↔ _
  simp

theorem yields_adapt {f : ε → ε'} {x : ExceptT ε (StateM State) α} {a : α} :
    Yields (ExceptT.adapt f x) s a s' ↔ Yields x s a s' := by
  change ((outcome x s).1.mapError f, (outcome x s).2) = _ ↔ outcome x s = _
  rcases outcome x s with ⟨_ | _, _⟩ <;> constructor <;> rintro ⟨⟩ <;> rfl

@[simp]
theorem yields_within {f : ε → ε'} {x : Visit ε α} {a : α} : Yields (within f x) s a s' ↔ Yields x s a s' :=
  yields_adapt

@[simp]
theorem yields_leaving {left : ε} {x : Step α} {a : α} : Yields (leaving left x) s a s' ↔ Yields x s a s' :=
  yields_adapt

@[simp]
theorem yields_located {x : Except Unlocated α} {a : α} : Yields (located x) s a s' ↔ x = .ok a ∧ s = s' := by
  cases x with
  | error cause => simpa [located] using not_yields_throw
  | ok b => simp [located]

end Coverage.Pass
