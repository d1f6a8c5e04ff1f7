import LongMode.Fault
import LongMode.Misuse
/-!
What keeps an instruction from completing: a fault of the guest, or a request that the engine cannot
serve.
-/

namespace LongMode

inductive Halt where
  | fault (f : Fault)
  | misuse (u : Misuse)
deriving DecidableEq, Repr

/-- A result that can only fail by a fault. -/
def orFault {α : Type} : Except Fault α → Except Halt α
  | .ok x => .ok x
  | .error f => .error (.fault f)

def orMisuse {α : Type} : Except Misuse α → Except Halt α
  | .ok x => .ok x
  | .error u => .error (.misuse u)

@[simp] theorem orFault_ok {α : Type} (x : α) : orFault (.ok x) = .ok x := rfl

@[simp] theorem orFault_error {α : Type} (f : Fault) :
    (orFault (.error f) : Except Halt α) = .error (.fault f) := rfl

end LongMode
