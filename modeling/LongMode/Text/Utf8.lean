/-!
UTF-8, read one character at a time, with the place and the extent of the first fault.
-/

namespace LongMode.Utf8

/-- Where a byte sequence stops being UTF-8. -/
inductive Fault where
  /-- After `offset` good bytes come `length` bytes that no text holds. -/
  | invalid (offset length : Nat)
  /-- After `offset` good bytes the sequence ends inside a character. -/
  | incomplete (offset : Nat)
deriving DecidableEq, Repr

def Fault.message : Fault → String
  | invalid offset length =>
    "invalid utf-8 sequence of " ++ toString length ++ " bytes from index " ++ toString offset
  | incomplete offset => "incomplete utf-8 byte sequence from index " ++ toString offset

/-- What a first byte says: the number of bytes to follow, the bits it contributes, and the range
of the second byte. -/
def lead? (b : Nat) : Option (Nat × Nat × Nat × Nat) :=
  if b < 0x80 then some (0, b, 0x80, 0xBF)
  else if 0xC2 ≤ b ∧ b ≤ 0xDF then some (1, b - 0xC0, 0x80, 0xBF)
  else if b = 0xE0 then some (2, 0, 0xA0, 0xBF)
  else if b = 0xED then some (2, 0xD, 0x80, 0x9F)
  else if 0xE1 ≤ b ∧ b ≤ 0xEF then some (2, b - 0xE0, 0x80, 0xBF)
  else if b = 0xF0 then some (3, 0, 0x90, 0xBF)
  else if b = 0xF4 then some (3, 4, 0x80, 0x8F)
  else if 0xF1 ≤ b ∧ b ≤ 0xF3 then some (3, b - 0xF0, 0x80, 0xBF)
  else none

/-- The characters of a byte sequence. The state is the offset of the current character, how many
of its bytes are read and how many are owed, the bits so far, and the range of the next byte. -/
def decodeFrom (offset got owed acc low high : Nat) : List UInt8 → Except Fault (List Char)
  | [] => if owed = 0 then .ok [] else .error (.incomplete offset)
  | byte :: rest =>
    let b := byte.toNat
    if owed = 0 then
      match lead? b with
      | none => .error (.invalid offset 1)
      | some (0, bits, _, _) => (decodeFrom (offset + 1) 0 0 0 0 0 rest).map (Char.ofNat bits :: ·)
      | some (more, bits, low, high) => decodeFrom offset 1 more bits low high rest
    else if low ≤ b ∧ b ≤ high then
      let bits := acc * 64 + (b - 0x80)
      if owed = 1 then
        (decodeFrom (offset + got + 1) 0 0 0 0 0 rest).map (Char.ofNat bits :: ·)
      else decodeFrom offset (got + 1) (owed - 1) bits 0x80 0xBF rest
    else .error (.invalid offset got)

def decode (bytes : List UInt8) : Except Fault (List Char) := decodeFrom 0 0 0 0 0 0 bytes

def encodeChar (c : Char) : List UInt8 :=
  let n := c.toNat
  if n < 0x80 then [UInt8.ofNat n]
  else if n < 0x800 then [UInt8.ofNat (0xC0 + n / 64), UInt8.ofNat (0x80 + n % 64)]
  else if n < 0x10000 then
    [UInt8.ofNat (0xE0 + n / 4096), UInt8.ofNat (0x80 + n / 64 % 64), UInt8.ofNat (0x80 + n % 64)]
  else
    [UInt8.ofNat (0xF0 + n / 262144), UInt8.ofNat (0x80 + n / 4096 % 64),
      UInt8.ofNat (0x80 + n / 64 % 64), UInt8.ofNat (0x80 + n % 64)]

def encode (text : List Char) : List UInt8 := text.flatMap encodeChar

end LongMode.Utf8
