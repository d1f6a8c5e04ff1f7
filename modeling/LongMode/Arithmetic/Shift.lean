import LongMode.Flags
import LongMode.Instruction.Basic
/-!
Shifts and rotates at a width. The count is cut to six bits for a 64-bit operand and to five
otherwise, and a count of zero changes nothing. The overflow flag is defined only for a count of one.
-/

namespace LongMode.Arithmetic

def shiftCount (count : UInt64) (w : Width) : Nat :=
  (count &&& (if w = .qword then 0x3F else 0x1F)).toNat

def topBit (v : UInt64) (w : Width) : Bool := v &&& w.signBit != 0

/-- A value rotated left by less than its width. -/
def rotateLeft (v : UInt64) (n : Nat) (w : Width) : UInt64 :=
  if n = 0 then v
  else ((v <<< UInt64.ofNat n) ||| (v >>> UInt64.ofNat (w.wordBits - n))) &&& w.mask

/-- `n` rotations to the left by one bit through the carry. -/
def carryLeft (w : Width) : Nat → UInt64 × Bool → UInt64 × Bool
  | 0, s => s
  | n + 1, (v, carry) =>
    carryLeft w n (((v <<< 1) ||| (if carry then 1 else 0)) &&& w.mask, topBit v w)

def carryRight (w : Width) : Nat → UInt64 × Bool → UInt64 × Bool
  | 0, s => s
  | n + 1, (v, carry) =>
    carryRight w n ((v >>> 1) ||| (if carry then w.signBit else 0), v &&& 1 != 0)

/-- The flags of a rotation: the carry, and for a count of one the overflow. -/
def rotateFlags (count : Nat) (carry overflow : Bool) : Flags :=
  { carry := some carry, overflow := if count = 1 then some overflow else none }

/-- The flags of a shift: those of a rotation, and those that describe the result. -/
def shiftFlags (count : Nat) (carry overflow : Bool) (result : UInt64) (w : Width) : Flags :=
  { rotateFlags count carry overflow with
    zero := some (result == 0), sign := some (topBit result w), parity := some (evenParity result) }

/-- The result and the flags, unless the count is zero. -/
def shift (op : ShiftOp) (value count : UInt64) (w : Width) (carryIn : Bool) :
    Option (UInt64 × Flags) :=
  let n := shiftCount count w
  let v := value &&& w.mask
  if n = 0 then none
  else some <| match op with
    | .rol =>
      let result := rotateLeft v (n % w.wordBits) w
      let carry := result &&& 1 != 0
      (result, rotateFlags n carry (topBit result w != carry))
    | .ror =>
      let result := rotateLeft v ((w.wordBits - n % w.wordBits) % w.wordBits) w
      (result, rotateFlags n (topBit result w)
        (topBit result w != (result &&& (w.signBit >>> 1) != 0)))
    | .rcl =>
      let (result, carry) := carryLeft w (n % (w.wordBits + 1)) (v, carryIn)
      (result, rotateFlags n carry (topBit result w != carry))
    | .rcr =>
      let (result, carry) := carryRight w (n % (w.wordBits + 1)) (v, carryIn)
      (result, rotateFlags n carry (topBit v w != carryIn))
    | .shl | .sal =>
      let wide := v.toNat <<< n
      let result := UInt64.ofNat wide &&& w.mask
      let carry := wide.testBit w.wordBits
      (result, shiftFlags n carry (topBit result w != carry) result w)
    | .shr =>
      let result := v >>> UInt64.ofNat n
      let carry := (v >>> UInt64.ofNat (n - 1)) &&& 1 != 0
      (result, shiftFlags n carry (topBit v w) result w)
    | .sar =>
      let signed := (w.signExtend v).toInt64
      let result := (signed >>> Int64.ofNat n).toUInt64 &&& w.mask
      let carry := (signed >>> Int64.ofNat (n - 1)).toUInt64 &&& 1 != 0
      (result, shiftFlags n carry false result w)

end LongMode.Arithmetic
