/-!
Operand widths: the number of bytes an operand covers, and what a 64-bit word looks like at each
width. A word carries at most eight bytes, so the two vector widths behave as a full word here.
-/

namespace LongMode

/-- How many bytes an operand covers. -/
inductive Width where
  | byte
  | word
  | dword
  | qword
  /-- The low half of a vector register. -/
  | xmm
  /-- A whole vector register. -/
  | ymm
deriving DecidableEq, Repr, Inhabited

namespace Width

def bytes : Width → Nat
  | byte => 1
  | word => 2
  | dword => 4
  | qword => 8
  | xmm => 16
  | ymm => 32

def bits (w : Width) : Nat := 8 * w.bytes

/-- The bytes of the operand that fit into a word. -/
def wordBytes (w : Width) : Nat := min w.bytes 8

def wordBits (w : Width) : Nat := 8 * w.wordBytes

/-- How many values the operand's word has. -/
def modulus (w : Width) : Nat := Nat.pow 2 w.wordBits

def ofBytes? : Nat → Option Width
  | 1 => some byte
  | 2 => some word
  | 4 => some dword
  | 8 => some qword
  | 16 => some xmm
  | 32 => some ymm
  | _ => none

def mask : Width → UInt64
  | byte => 0xFF
  | word => 0xFFFF
  | dword => 0xFFFF_FFFF
  | _ => 0xFFFF_FFFF_FFFF_FFFF

def signBit : Width → UInt64
  | byte => 0x80
  | word => 0x8000
  | dword => 0x8000_0000
  | _ => 0x8000_0000_0000_0000

/-- The low part of `v` read as a two's complement number and written back as a whole word. -/
def signExtend (w : Width) (v : UInt64) : UInt64 :=
  match w with
  | byte => v.toUInt8.toInt8.toInt64.toUInt64
  | word => v.toUInt16.toInt16.toInt64.toUInt64
  | dword => v.toUInt32.toInt32.toInt64.toUInt64
  | _ => v

def toInt (w : Width) (v : UInt64) : Int :=
  (w.signExtend v).toInt64.toInt

def pointerKeyword : Width → String
  | byte => "BYTE PTR"
  | word => "WORD PTR"
  | dword => "DWORD PTR"
  | qword => "QWORD PTR"
  | xmm => "XMMWORD PTR"
  | ymm => "YMMWORD PTR"

/-- The next smaller integer width, from which an accumulator is widened. -/
def half : Width → Width
  | word => byte
  | dword => word
  | _ => dword

theorem bytes_pos (w : Width) : 0 < w.bytes := by cases w <;> decide

end Width

end LongMode
