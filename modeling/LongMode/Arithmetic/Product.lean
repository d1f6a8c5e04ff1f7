import LongMode.Width
/-!
Products of double width and the division that undoes them.
-/

namespace LongMode.Arithmetic

structure Product where
  low : UInt64
  high : UInt64
  /-- The low half alone does not stand for the product. -/
  overflow : Bool
deriving DecidableEq, Repr

def mulUnsigned (a b : UInt64) (w : Width) : Product :=
  let product := a.toNat * b.toNat
  let high := UInt64.ofNat (product / w.modulus) &&& w.mask
  { low := UInt64.ofNat product &&& w.mask, high, overflow := high != 0 }

def mulSigned (a b : UInt64) (w : Width) : Product :=
  let product := w.toInt a * w.toInt b
  let low := UInt64.ofInt product &&& w.mask
  let high := UInt64.ofInt (product.fdiv w.modulus) &&& w.mask
  { low, high, overflow := w.toInt low != product }

/-- The quotient and the remainder of a double-width number, unless the quotient does not fit. -/
def divUnsigned (high low divisor : UInt64) (w : Width) : Option (UInt64 × UInt64) :=
  let dividend := high.toNat * w.modulus + low.toNat
  let quotient := dividend / divisor.toNat
  if divisor = 0 ∨ w.mask.toNat < quotient then none
  else some (UInt64.ofNat quotient, UInt64.ofNat (dividend % divisor.toNat))

/-- `divUnsigned` for two's complement numbers. The quotient is cut off toward zero. -/
def divSigned (high low divisor : UInt64) (w : Width) : Option (UInt64 × UInt64) :=
  let dividend := Int.bmod (high.toNat * w.modulus + low.toNat : Nat) (w.modulus * w.modulus)
  let divisorInt := w.toInt divisor
  let quotient := dividend.tdiv divisorInt
  let limit : Int := (w.modulus / 2 : Nat)
  if divisor = 0 ∨ quotient < -limit ∨ limit ≤ quotient then none
  else some (UInt64.ofInt quotient &&& w.mask, UInt64.ofInt (dividend.tmod divisorInt) &&& w.mask)

end LongMode.Arithmetic
