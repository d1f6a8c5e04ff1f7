import LongMode.Condition
import LongMode.Operand
/-!
Instructions, decoded: all operand bytes have been read, so that an instruction can be executed or
rendered without the memory that it came from.
-/

namespace LongMode

/-- The eight classic operations on two operands, in encoding order. -/
inductive BinaryOp where
  | add
  | or
  | adc
  | sbb
  | and
  | sub
  | xor
  | cmp
deriving DecidableEq, Repr

namespace BinaryOp

def ofIndex (i : Nat) : BinaryOp :=
  match i % 8 with
  | 0 => add
  | 1 => or
  | 2 => adc
  | 3 => sbb
  | 4 => and
  | 5 => sub
  | 6 => xor
  | _ => cmp

def mnemonic : BinaryOp → String
  | add => "ADD"
  | or => "OR"
  | adc => "ADC"
  | sbb => "SBB"
  | and => "AND"
  | sub => "SUB"
  | xor => "XOR"
  | cmp => "CMP"

end BinaryOp

inductive UnaryOp where
  | inc
  | dec
  | not
  | neg
deriving DecidableEq, Repr

def UnaryOp.mnemonic : UnaryOp → String
  | inc => "INC"
  | dec => "DEC"
  | not => "NOT"
  | neg => "NEG"

/-- Shifts and rotates, in encoding order. -/
inductive ShiftOp where
  | rol
  | ror
  | rcl
  | rcr
  | shl
  | shr
  | sal
  | sar
deriving DecidableEq, Repr

namespace ShiftOp

def ofIndex (i : Nat) : ShiftOp :=
  match i % 8 with
  | 0 => rol
  | 1 => ror
  | 2 => rcl
  | 3 => rcr
  | 4 => shl
  | 5 => shr
  | 6 => sal
  | _ => sar

def mnemonic : ShiftOp → String
  | rol => "ROL"
  | ror => "ROR"
  | rcl => "RCL"
  | rcr => "RCR"
  | shl => "SHL"
  | shr => "SHR"
  | sal => "SAL"
  | sar => "SAR"

end ShiftOp

inductive BitOp where
  | test
  | set
  | reset
  | complement
deriving DecidableEq, Repr

def BitOp.mnemonic : BitOp → String
  | test => "BT"
  | set => "BTS"
  | reset => "BTR"
  | complement => "BTC"

inductive FlagOp where
  | clearCarry
  | setCarry
  | complementCarry
  | clearDirection
  | setDirection
  | clearInterrupt
  | setInterrupt
deriving DecidableEq, Repr

def FlagOp.mnemonic : FlagOp → String
  | clearCarry => "CLC"
  | setCarry => "STC"
  | complementCarry => "CMC"
  | clearDirection => "CLD"
  | setDirection => "STD"
  | clearInterrupt => "CLI"
  | setInterrupt => "STI"

inductive StringKind where
  | move
  | compare
  | store
  | load
  | scan
deriving DecidableEq, Repr

namespace StringKind

def mnemonic : StringKind → String
  | move => "MOVS"
  | compare => "CMPS"
  | store => "STOS"
  | load => "LODS"
  | scan => "SCAS"

/-- The operation sets the flags, and a repetition of it can end early. -/
def compares : StringKind → Bool
  | compare | scan => true
  | _ => false

end StringKind

/-- A string instruction. Its operands are implicit: the source and destination indexes point to
memory, and the accumulator has the width of an element. -/
structure StringOp where
  kind : StringKind
  width : Width
  /-- The width of the two indexes and the counter. -/
  pointerWidth : Width
  repetition : Option Repetition
  segment : Option SegmentRegister
deriving DecidableEq, Repr

inductive Instruction where
  | binary (op : BinaryOp) (dst src : Operand)
  | test (dst src : Operand)
  | unary (op : UnaryOp) (target : Operand)
  /-- The accumulator times `source`, into the accumulator and data registers. -/
  | multiply (signed : Bool) (source : Operand)
  /-- The accumulator and data registers divided by `source`. -/
  | divide (signed : Bool) (source : Operand)
  /-- The signed product of `dst` and `src`, or of `src` and `factor`. -/
  | multiplyInto (dst src : Operand) (factor : Option Operand)
  | move (dst src : Operand)
  /-- A move that widens its source. -/
  | moveExtend (signed : Bool) (dst src : Operand)
  /-- The address of a memory operand. -/
  | loadAddress (dst : Operand) (src : Pointer)
  | exchange (a b : Operand)
  | exchangeAdd (dst src : Operand)
  | moveIf (cond : Condition) (dst src : Operand)
  | setIf (cond : Condition) (dst : Operand)
  | swapBytes (target : Register)
  /-- The accumulator sign-extended from half of `width` to `width`. -/
  | widenAccumulator (width : Width)
  /-- The sign of the accumulator copied into every bit of the data register. -/
  | spreadSign (width : Width)
  | push (source : Operand)
  | pop (target : Operand)
  | pushFlags (width : Width)
  | popFlags (width : Width)
  | leave (width : Width)
  | jump (cond : Condition) (target : Operand)
  | call (target : Operand)
  /-- A return that drops `release` more bytes from the stack. -/
  | ret (release : UInt16)
  | shift (op : ShiftOp) (target count : Operand)
  | bitTest (op : BitOp) (base offset : Operand)
  /-- The position of the lowest set bit of `src`, or of the highest. -/
  | bitScan (reverse : Bool) (dst src : Operand)
  | flag (op : FlagOp)
  /-- Flags from the second byte of the accumulator. -/
  | loadFlags
  /-- Flags into the second byte of the accumulator. -/
  | storeFlags
  | string (op : StringOp)
  | nop (operand : Option Operand)
deriving DecidableEq, Repr

end LongMode
