/-!
Computations that may fail, taken apart: one that gives a result has got past each of its steps.
-/

namespace LongMode

variable {ε α β : Type}

theorem ok_bind (x : α) (f : α → Except ε β) : (Except.ok x >>= f) = f x := rfl

theorem ok_of_bind {r : Except ε α} {f : α → Except ε β} {y : β} (h : r >>= f = .ok y) :
    ∃ x, r = .ok x ∧ f x = .ok y := by
  cases r with
  | ok x => exact ⟨x, rfl, h⟩
  | error e => cases h

theorem bind_ok_iff {r : Except ε α} {f : α → Except ε β} :
    (∃ y, r >>= f = .ok y) ↔ ∃ x, r = .ok x ∧ ∃ y, f x = .ok y := by
  constructor
  · rintro ⟨y, h⟩
    obtain ⟨x, hx, hy⟩ := ok_of_bind h
    exact ⟨x, hx, y, hy⟩
  · rintro ⟨x, rfl, h⟩
    exact h

end LongMode
