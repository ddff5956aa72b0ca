import Mathlib

/-!
# Results of fallible code

How a success of a composed computation came about.
-/

namespace Result

variable {ε α β : Type}

theorem ok_of_bind {f : α → Except ε β} {x : Except ε α} {b : β} (h : x >>= f = .ok b) :
    ∃ a, x = .ok a ∧ f a = .ok b := by
  cases x with
  | error e => cases h
  | ok a => exact ⟨a, rfl, h⟩

theorem bind_of_ok {f : α → Except ε β} {x : Except ε α} {a : α} (h : x = .ok a) : x >>= f = f a := by
  rw [h]
  rfl

theorem ok_of_map {f : α → β} {x : Except ε α} {b : β} (h : x.map f = .ok b) :
    ∃ a, x = .ok a ∧ f a = b := by
  cases x with
  | error e => cases h
  | ok a => cases h; exact ⟨a, rfl, rfl⟩

theorem error_of_map {f : α → β} {x : Except ε α} {e : ε} (h : x.map f = .error e) : x = .error e := by
  cases x with
  | error e => cases h; rfl
  | ok a => cases h

end Result
