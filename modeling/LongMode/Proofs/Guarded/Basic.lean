import LongMode.Halt
import LongMode.Width
/-!
Computations each step of which may crash the engine. A step is guarded where the model calculates
with numbers of any size, or reads a table that it has an entry for by its type; the guarded engine
is then shown to come to the same, and so not to crash.
-/

namespace LongMode

inductive Crash where
  /-- A shift by the size of the word or more. -/
  | shift (amount size : Nat)
  | zeroDivisor
  /-- A result that does not fit into its word. -/
  | overflow
  /-- An access beyond the end of a table. -/
  | index (i size : Nat)
  /-- An operand that is wider than a word. -/
  | width (w : Width)
  | misuse (u : Misuse)
deriving DecidableEq, Repr

/-- A computation that may halt, and crash instead. -/
abbrev Guard := ExceptT Halt (Except Crash)

namespace Guard

variable {α β : Type}

def sure (c : Except Crash α) : Guard α := ExceptT.lift c

/-- A part of the engine; a misuse of it is a crash. -/
def part (r : Except Halt α) : Guard α := ExceptT.mk <|
  match r with
  | .ok x => .ok (.ok x)
  | .error (.fault f) => .ok (.error (.fault f))
  | .error (.misuse u) => .error (.misuse u)

/-- The computation does not crash, and comes to the same. -/
def Runs (c : Guard α) (r : Except Halt α) : Prop := c.run = .ok r

theorem sure_bind (x : α) (f : α → Guard β) : (sure (.ok x) >>= f) = f x := rfl

namespace Runs

theorem pure (x : α) : Runs (Pure.pure x) (.ok x) := rfl

theorem sure {c : Except Crash α} {x : α} (h : c = .ok x) : Runs (Guard.sure c) (.ok x) := by
  subst h
  rfl

theorem part {r : Except Halt α} (h : ∀ e, r = .error e → ∃ f, e = .fault f) :
    Runs (Guard.part r) r := by
  match r, h with
  | .ok x, _ => rfl
  | .error e, h =>
    obtain ⟨f, rfl⟩ := h e rfl
    rfl

theorem bind {c : Guard α} {r : Except Halt α} {f : α → Guard β} {g : α → Except Halt β}
    (hc : Runs c r) (hf : ∀ x, r = .ok x → Runs (f x) (g x)) : Runs (c >>= f) (r >>= g) := by
  change (c.run >>= _) = _
  rw [hc]
  cases r with
  | ok x => exact hf x rfl
  | error e => rfl

theorem ite {p : Prop} [Decidable p] {c c' : Guard α} {r r' : Except Halt α} (hc : Runs c r)
    (hc' : Runs c' r') : Runs (if p then c else c') (if p then r else r') := by
  by_cases h : p
  · rw [if_pos h, if_pos h]
    exact hc
  · rw [if_neg h, if_neg h]
    exact hc'

end Runs

end Guard

end LongMode
