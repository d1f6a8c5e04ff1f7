import LongMode.Flags
/-!
Addition, subtraction and bitwise logic at a width, each with the flags that it defines.
-/

namespace LongMode.Arithmetic

def add (a b : UInt64) (carryIn : Bool) (w : Width) : UInt64 × Flags :=
  let a := a &&& w.mask
  let b := b &&& w.mask
  let full := a.toNat + b.toNat + carryIn.toNat
  let result := UInt64.ofNat full &&& w.mask
  (result,
    { Flags.ofResult result w with
      carry := some (w.mask.toNat < full)
      overflow := some ((a ^^^ result) &&& (b ^^^ result) &&& w.signBit != 0)
      auxiliary := some ((a ^^^ b ^^^ result) &&& 0x10 != 0) })

def sub (a b : UInt64) (borrowIn : Bool) (w : Width) : UInt64 × Flags :=
  let a := a &&& w.mask
  let b := b &&& w.mask
  let borrow : UInt64 := if borrowIn then 1 else 0
  let result := (a - b - borrow) &&& w.mask
  (result,
    { Flags.ofResult result w with
      carry := some (a.toNat < b.toNat + borrowIn.toNat)
      overflow := some ((a ^^^ b) &&& (a ^^^ result) &&& w.signBit != 0)
      auxiliary := some ((a ^^^ b ^^^ result) &&& 0x10 != 0) })

/-- The flags of a bitwise result. The auxiliary carry is left alone. -/
def logic (result : UInt64) (w : Width) : Flags :=
  { Flags.ofResult result w with carry := some false, overflow := some false }

end LongMode.Arithmetic
