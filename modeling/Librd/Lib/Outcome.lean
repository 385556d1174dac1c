import Mathlib.Logic.Basic

/-!
# Outcomes of programs that can fail

`Outcome E P x` says of a computation in `Except` that its result satisfies `P`, or that it fails with an error that
satisfies `E`. The rules follow the constructs of such programs: `Outcome.bind` for sequences, `Outcome.ite` for
branches. With no error allowed an outcome is a result (`Outcome.exists_ok`). Where a sequence has a result, so have its
parts (`Outcome.exists_of_bind`).
-/

/-- The result satisfies `P`, or the error satisfies `E`. -/
def Outcome {ε α : Type*} (E : ε → Prop) (P : α → Prop) : Except ε α → Prop
  | .ok a => P a
  | .error e => E e

namespace Outcome

universe u v

variable {ε : Type u} {α β : Type v} {E : ε → Prop} {P : α → Prop} {Q : β → Prop}

@[simp] theorem ok {a : α} : Outcome E P (.ok a) ↔ P a := .rfl

@[simp] theorem pure {a : α} : Outcome E P (Pure.pure a : Except ε α) ↔ P a := .rfl

@[simp] theorem error {e : ε} : Outcome E P (.error e : Except ε α) ↔ E e := .rfl

@[simp] theorem throw {e : ε} : Outcome E P (MonadExcept.throw e : Except ε α) ↔ E e := .rfl

/-- Sequences. -/
theorem bind {x : Except ε α} {f : α → Except ε β} (hx : Outcome E P x) (hf : ∀ a, P a → Outcome E Q (f a)) :
    Outcome E Q (x >>= f) := by
  cases x with
  | ok a => exact hf a hx
  | error e => exact hx

theorem mono {E' : ε → Prop} {P' : α → Prop} {x : Except ε α} (hx : Outcome E P x) (hE : ∀ e, E e → E' e)
    (hP : ∀ a, P a → P' a) : Outcome E' P' x := by
  cases x with
  | ok a => exact hP a hx
  | error e => exact hE e hx

/-- Maps over the result. -/
theorem map {x : Except ε α} {f : α → β} (hx : Outcome E P x) (hf : ∀ a, P a → Q (f a)) : Outcome E Q (x.map f) := by
  cases x with
  | ok a => exact hf a hx
  | error e => exact hx

/-- Branches. -/
theorem ite {c : Prop} [Decidable c] {x y : Except ε α} (hx : c → Outcome E P x) (hy : ¬c → Outcome E P y) :
    Outcome E P (if c then x else y) := by
  by_cases hc : c
  · rw [if_pos hc]; exact hx hc
  · rw [if_neg hc]; exact hy hc

/-- With no error allowed there is a result. -/
theorem exists_ok {x : Except ε α} (hx : Outcome (fun _ => False) P x) : ∃ a, x = .ok a ∧ P a := by
  cases x with
  | ok a => exact ⟨a, rfl, hx⟩
  | error e => exact hx.elim

/-- A sequence with a result: its parts have results. -/
theorem exists_of_bind {x : Except ε α} {f : α → Except ε β} {b : β} (h : x >>= f = .ok b) :
    ∃ a, x = .ok a ∧ f a = .ok b := by
  cases x with
  | ok a => exact ⟨a, rfl, h⟩
  | error e => cases h

end Outcome
