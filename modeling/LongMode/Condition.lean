import LongMode.Flags
/-!
The conditions that jumps, conditional moves and byte settings test.
-/

namespace LongMode

inductive Condition where
  | above
  | notAbove
  | carry
  | notCarry
  | zero
  | notZero
  | greater
  | greaterOrEqual
  | less
  | lessOrEqual
  | overflow
  | notOverflow
  | sign
  | notSign
  | parity
  | notParity
  /-- The counter register is zero. -/
  | counterZero
  | always
deriving DecidableEq, Repr

namespace Condition

/-- The condition in the low four bits of an opcode. -/
def ofCode (code : Nat) : Condition :=
  match code % 16 with
  | 0x0 => overflow
  | 0x1 => notOverflow
  | 0x2 => carry
  | 0x3 => notCarry
  | 0x4 => zero
  | 0x5 => notZero
  | 0x6 => notAbove
  | 0x7 => above
  | 0x8 => sign
  | 0x9 => notSign
  | 0xA => parity
  | 0xB => notParity
  | 0xC => less
  | 0xD => greaterOrEqual
  | 0xE => lessOrEqual
  | _ => greater

/-- The condition holds for these flags and this counter. An undefined flag counts as off. -/
def holds (c : Condition) (f : Flags) (counter : UInt64) : Bool :=
  let cf := isOn f.carry
  let zf := isOn f.zero
  let sf := isOn f.sign
  let vf := isOn f.overflow
  let pf := isOn f.parity
  match c with
  | above => !cf && !zf
  | notAbove => cf || zf
  | carry => cf
  | notCarry => !cf
  | zero => zf
  | notZero => !zf
  | greater => !zf && sf == vf
  | greaterOrEqual => sf == vf
  | less => sf != vf
  | lessOrEqual => zf || sf != vf
  | overflow => vf
  | notOverflow => !vf
  | sign => sf
  | notSign => !sf
  | parity => pf
  | notParity => !pf
  | counterZero => counter == 0
  | always => true

def suffix : Condition → String
  | above => "A"
  | notAbove => "NA"
  | carry => "C"
  | notCarry => "NC"
  | zero => "Z"
  | notZero => "NZ"
  | greater => "G"
  | greaterOrEqual => "GE"
  | less => "L"
  | lessOrEqual => "LE"
  | overflow => "O"
  | notOverflow => "NO"
  | sign => "S"
  | notSign => "NS"
  | parity => "P"
  | notParity => "NP"
  | counterZero => "RCXZ"
  | always => ""

end Condition

end LongMode
