import LongMode.Fault
import LongMode.Width
/-!
The bytes in front of an opcode. Legacy prefixes fall into four groups, and of each group the last
one counts. A REX byte counts only where nothing but the opcode follows it.
-/

namespace LongMode

inductive SegmentRegister where
  | es
  | cs
  | ss
  | ds
  | fs
  | gs
deriving DecidableEq, Repr

def SegmentRegister.name : SegmentRegister → String
  | es => "ES"
  | cs => "CS"
  | ss => "SS"
  | ds => "DS"
  | fs => "FS"
  | gs => "GS"

/-- The prefixes of the first group. -/
inductive Repetition where
  | lock
  /-- Repeat while not equal. -/
  | whileUnequal
  /-- Repeat, and for comparisons repeat while equal. -/
  | whileEqual
deriving DecidableEq, Repr

structure Prefixes where
  segment : Option SegmentRegister := none
  repetition : Option Repetition := none
  operandSize : Bool := false
  addressSize : Bool := false
deriving DecidableEq, Repr, Inhabited

namespace Prefixes

/-- The prefixes after one more byte, if it is a legacy prefix. -/
def record? (p : Prefixes) (byte : UInt8) : Option Prefixes :=
  match byte.toNat with
  | 0x26 => some { p with segment := some .es }
  | 0x2E => some { p with segment := some .cs }
  | 0x36 => some { p with segment := some .ss }
  | 0x3E => some { p with segment := some .ds }
  | 0x64 => some { p with segment := some .fs }
  | 0x65 => some { p with segment := some .gs }
  | 0xF0 => some { p with repetition := some .lock }
  | 0xF2 => some { p with repetition := some .whileUnequal }
  | 0xF3 => some { p with repetition := some .whileEqual }
  | 0x66 => some { p with operandSize := true }
  | 0x67 => some { p with addressSize := true }
  | _ => none

def isEmpty (p : Prefixes) : Bool := p == {}

end Prefixes

/-- A REX byte: a 64-bit operand, and a fourth bit for each of three register fields. -/
structure Rex where
  wide : Bool := false
  /-- Extends the register field of a ModRM byte. -/
  reg : Bool := false
  /-- Extends the index of a SIB byte. -/
  index : Bool := false
  /-- Extends the base: the operand field of a ModRM byte, the base of a SIB byte, or the register
  in an opcode. -/
  base : Bool := false
deriving DecidableEq, Repr, Inhabited

def Rex.ofByte? (byte : UInt8) : Option Rex :=
  let n := byte.toNat
  if n / 16 = 4 then
    some ⟨n.testBit 3, n.testBit 2, n.testBit 1, n.testBit 0⟩
  else none

/-- Everything that the bytes in front of an opcode say. -/
structure Modifiers extends Prefixes where
  rex : Option Rex := none
deriving DecidableEq, Repr, Inhabited

abbrev Fetch := UInt64 → Except Fault UInt8

namespace Modifiers

/-- The modifiers after one more byte, if it is no opcode. -/
def absorb? (m : Modifiers) (byte : UInt8) : Option Modifiers :=
  match m.record? byte with
  | some p => some { p with rex := none }
  | none => (Rex.ofByte? byte).map fun rex => { m with rex := some rex }

/-- The modifiers in the bytes from `a` on, and the address of the first byte that is not one of
them or cannot be read. At most `count` bytes are looked at. -/
def scan (fetch : Fetch) : Nat → Modifiers → UInt64 → Modifiers × UInt64
  | 0, m, a => (m, a)
  | count + 1, m, a =>
    match fetch a with
    | .error _ => (m, a)
    | .ok byte =>
      match m.absorb? byte with
      | some next => scan fetch count next (a + 1)
      | none => (m, a)

/-- The modifiers in front of the opcode at `a`. A run of them that goes all the way round the
address space ends where it began. -/
def leading (fetch : Fetch) (a : UInt64) : Modifiers × UInt64 := scan fetch UInt64.size {} a

/-- The REX byte in force, with every bit clear where there is none. -/
def bits (m : Modifiers) : Rex := m.rex.getD {}

def operandWidth (m : Modifiers) (byteSized : Bool) : Width :=
  if byteSized then .byte
  else if m.bits.wide then .qword
  else if m.operandSize then .word
  else .dword

def stackWidth (m : Modifiers) : Width := if m.operandSize then .word else .qword

def addressWidth (m : Modifiers) : Width := if m.addressSize then .dword else .qword

end Modifiers

end LongMode
