import LongMode.Halt
import LongMode.Machine
/-!
What an execution ends with. An execution that is halted may have changed the machine before.
-/

namespace LongMode

inductive Outcome where
  | done (m : Machine)
  | halted (h : Halt) (m : Machine)

namespace Outcome

/-- An effect on `m` that takes place as a whole or not at all. -/
def whole (m : Machine) : Except Halt Machine → Outcome
  | .ok next => done next
  | .error h => halted h m

def machine : Outcome → Machine
  | done m => m
  | halted _ m => m

end Outcome

end LongMode
