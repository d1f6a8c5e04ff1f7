import LongMode.Text.Digits
/-!
What a guest program can run into: a fault stops it with the instruction pointer on the faulting
instruction, except that an unknown opcode is reported and passed over.
-/

namespace LongMode

inductive Fault where
  /-- No instruction is encoded at `address`. -/
  | invalidOpcode (address : UInt64) (opcode : UInt8)
  /-- A division by zero, or a quotient that does not fit. -/
  | divideError (address : UInt64)
  /-- A read of a byte that strict memory does not map. -/
  | unmappedMemory (address : UInt64)
deriving DecidableEq, Repr

namespace Fault

def message : Fault → String
  | invalidOpcode address opcode =>
    "#UD: invalid opcode " ++ Digits.byteHex opcode ++ " at " ++ Digits.prefixedHex address.toNat
  | divideError address => "#DE: divide error at " ++ Digits.prefixedHex address.toNat
  | unmappedMemory address => "unmapped memory read at " ++ Digits.prefixedHex address.toNat

def describe : Fault → String
  | invalidOpcode address opcode =>
    "InvalidOpcode \x7b address: " ++ toString address ++ ", opcode: " ++ toString opcode ++ " \x7d"
  | divideError address => "DivideError \x7b address: " ++ toString address ++ " \x7d"
  | unmappedMemory address => "UnmappedMemory \x7b address: " ++ toString address ++ " \x7d"

end Fault

end LongMode
