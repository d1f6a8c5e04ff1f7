import LongMode.Register.Bank
/-!
Requests that the engine cannot serve. They are mistakes of the caller, never of a guest program.
-/

namespace LongMode

inductive Misuse where
  /-- A register code beyond the end of its bank. -/
  | registerCode (bank : Bank) (code : Nat)
  /-- A byte count other than the width of the register written. -/
  | registerBytes (register : String) (count : Nat)
  /-- More bytes than a vector register holds. -/
  | vectorBytes (count : Nat)
  /-- An access outside the storage it goes to. -/
  | outOfRange
  /-- A write to an immediate operand. -/
  | immediateWrite
  /-- A number of operands other than two where a destination and a source are wanted. -/
  | operandCount (count : Nat)
deriving DecidableEq, Repr

/-- The complaint, where there is more to say than that storage was left. -/
def Misuse.message? : Misuse → Option String
  | registerCode bank code => some ("Invalid " ++ bank.name ++ " register code: " ++ toString code)
  | registerBytes register count =>
    some ("Register " ++ register ++ " written with " ++ toString count ++ " bytes")
  | vectorBytes count =>
    some ("SSE write of " ++ toString count ++ " bytes exceeds the 32 byte slot")
  | outOfRange => none
  | immediateWrite => some "Immediate operands cannot be written"
  | operandCount count => some ("Expected two operands, decoded " ++ toString count)

end LongMode
