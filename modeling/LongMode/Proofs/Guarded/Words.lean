import LongMode.Arithmetic.Product
import LongMode.Arithmetic.Shift
import LongMode.Proofs.Except
import LongMode.Proofs.Guarded.Basic
import LongMode.Proofs.Registers
/-!
Calculations in words of a fixed size, each step of which can fail: a shift by the size of its word
or more, a division by zero, and a result that does not fit have no result. At the widths of general
operands no step of a shift, a product, a quotient or a bit position fails, and the results are
those of the arithmetic on numbers of any size.
-/

namespace LongMode

namespace Width

variable {w : Width}

theorem wordBits_eq (h : w.bytes ≤ 8) : w.wordBits = w.bits := by
  unfold wordBits wordBytes bits
  rw [Nat.min_eq_left h]

theorem modulus_eq (h : w.bytes ≤ 8) : w.modulus = 2 ^ w.bits := by
  unfold modulus
  rw [wordBits_eq h]
  rfl

theorem bits_pos (w : Width) : 0 < w.bits := by cases w <;> decide

theorem bits_le (h : w.bytes ≤ 8) : w.bits ≤ 64 := by
  unfold bits
  omega

theorem toInt_lower (w : Width) (v : UInt64) : -2 ^ 63 ≤ w.toInt v :=
  (w.signExtend v).toInt64.le_toInt

theorem toInt_upper (w : Width) (v : UInt64) : w.toInt v < 2 ^ 63 :=
  (w.signExtend v).toInt64.toInt_lt

theorem toInt_eq (w : Width) (v : UInt64) : w.toInt v = Int.bmod v.toNat w.modulus := by
  have h (n : Nat) : (v.toBitVec.setWidth n).toInt = Int.bmod v.toNat (2 ^ n) :=
    BitVec.toInt_setWidth _
  cases w
  case byte => exact (Int8.toInt_toInt64 _).trans (h 8)
  case word => exact (Int16.toInt_toInt64 _).trans (h 16)
  case dword => exact (Int32.toInt_toInt64 _).trans (h 32)
  case qword | xmm | ymm => exact BitVec.toInt_eq_toNat_bmod _

theorem toInt_ne_zero {w : Width} {v : UInt64} (h0 : v ≠ 0) (hv : v.toNat < w.modulus) :
    w.toInt v ≠ 0 := by
  intro h
  have hmod : (v.toNat : Int) % w.modulus = 0 := by
    rw [← Int.bmod_emod, ← toInt_eq, h, Int.zero_emod]
  rw [Int.emod_eq_of_lt (by omega) (by omega)] at hmod
  exact h0 (UInt64.toNat_inj.1 (by exact_mod_cast hmod))

end Width

namespace Guarded

/-! Steps. -/

def shiftLeft (v : UInt64) (n : Nat) : Except Crash UInt64 :=
  if n < 64 then .ok (v <<< UInt64.ofNat n) else .error (.shift n 64)

def shiftRight (v : UInt64) (n : Nat) : Except Crash UInt64 :=
  if n < 64 then .ok (v >>> UInt64.ofNat n) else .error (.shift n 64)

def shiftRightSigned (v : Int64) (n : Nat) : Except Crash Int64 :=
  if n < 64 then .ok (v >>> Int64.ofNat n) else .error (.shift n 64)

/-- What is shifted out at the top of a double word is lost. -/
def shiftLeftDouble (v n : Nat) : Except Crash Nat :=
  if n < 128 then .ok (v <<< n % 2 ^ 128) else .error (.shift n 128)

def shiftRightDouble (v n : Nat) : Except Crash Nat :=
  if n < 128 then .ok (v >>> n) else .error (.shift n 128)

def shiftRightDoubleSigned (v : Int) (n : Nat) : Except Crash Int :=
  if n < 128 then .ok (v >>> n) else .error (.shift n 128)

def subtract (a b : Nat) : Except Crash Nat := if b ≤ a then .ok (a - b) else .error .overflow

def quotient (a b : Nat) : Except Crash Nat :=
  if b = 0 then .error .zeroDivisor else .ok (a / b)

def remainder (a b : Nat) : Except Crash Nat :=
  if b = 0 then .error .zeroDivisor else .ok (a % b)

/-- A number as a word of `size` bits. -/
def fit (size n : Nat) : Except Crash Nat := if n < 2 ^ size then .ok n else .error .overflow

def fitSigned (size : Nat) (n : Int) : Except Crash Int :=
  if -2 ^ (size - 1) ≤ n ∧ n < 2 ^ (size - 1) then .ok n else .error .overflow

def quotientSigned? (a b : Int) : Option Int :=
  if b = 0 then none else (fitSigned 128 (a.tdiv b)).toOption

/-- The remainder of double words whose quotient is one. -/
def remainderSigned (a b : Int) : Except Crash Int :=
  if b = 0 then .error .zeroDivisor
  else do
    let _ ← fitSigned 128 (a.tdiv b)
    return a.tmod b

def quotientEuclid (a b : Int) : Except Crash Int :=
  if b = 0 then .error .zeroDivisor else fitSigned 64 (a / b)

def remainderEuclid (a b : Int) : Except Crash Int :=
  if b = 0 then .error .zeroDivisor
  else do
    let _ ← fitSigned 64 (a / b)
    return a % b

section

variable {v n a b : Nat}

theorem shiftLeft_ok (x : UInt64) (h : n < 64) : shiftLeft x n = .ok (x <<< UInt64.ofNat n) :=
  if_pos h

theorem shiftRight_ok (x : UInt64) (h : n < 64) : shiftRight x n = .ok (x >>> UInt64.ofNat n) :=
  if_pos h

theorem shiftRightSigned_ok (x : Int64) (h : n < 64) :
    shiftRightSigned x n = .ok (x >>> Int64.ofNat n) := if_pos h

/-- Nothing is lost where there is room for all bits. -/
theorem shiftLeftDouble_ok {size : Nat} (hv : v < 2 ^ size) (h : n < 128) (hroom : size + n ≤ 128) :
    shiftLeftDouble v n = .ok (v <<< n) := by
  have hlt : v <<< n < 2 ^ 128 := calc
    v <<< n = v * 2 ^ n := Nat.shiftLeft_eq v n
    _ < 2 ^ size * 2 ^ n := Nat.mul_lt_mul_of_pos_right hv (Nat.two_pow_pos n)
    _ = 2 ^ (size + n) := (pow_add 2 size n).symm
    _ ≤ 2 ^ 128 := Nat.pow_le_pow_right (by decide) hroom
  unfold shiftLeftDouble
  rw [if_pos h, Nat.mod_eq_of_lt hlt]

theorem shiftRightDouble_ok (h : n < 128) : shiftRightDouble v n = .ok (v >>> n) := if_pos h

theorem shiftRightDoubleSigned_ok (x : Int) (h : n < 128) :
    shiftRightDoubleSigned x n = .ok (x >>> n) := if_pos h

theorem subtract_ok (h : b ≤ a) : subtract a b = .ok (a - b) := if_pos h

theorem quotient_ok (h : b ≠ 0) : quotient a b = .ok (a / b) := if_neg h

theorem remainder_ok (h : b ≠ 0) : remainder a b = .ok (a % b) := if_neg h

theorem fit_ok {size : Nat} (h : n < 2 ^ size) : fit size n = .ok n := if_pos h

theorem fitSigned_ok {size : Nat} {x : Int} (hl : -2 ^ (size - 1) ≤ x) (hu : x < 2 ^ (size - 1)) :
    fitSigned size x = .ok x := if_pos ⟨hl, hu⟩

end

/-! Shifts. -/

/-- A value rotated left by less than its width. A whole word may be rotated by any amount. -/
def rotateLeft (v : UInt64) (n : Nat) (w : Width) : Except Crash UInt64 :=
  if n = 0 then .ok v
  else if w.bits = 64 then .ok ((v <<< UInt64.ofNat n) ||| (v >>> UInt64.ofNat (64 - n)))
  else do
    let up ← shiftLeft v n
    let rest ← subtract w.bits n
    let down ← shiftRight v rest
    return (up ||| down) &&& w.mask

/-- `Arithmetic.shift` in words. A rotation through the carry shifts by one bit at a time. -/
def shift (op : ShiftOp) (value count : UInt64) (w : Width) (carryIn : Bool) :
    Except Crash (Option (UInt64 × Flags)) :=
  let n := Arithmetic.shiftCount count w
  let v := value &&& w.mask
  if n = 0 then .ok none
  else match op with
    | .rol => do
      let amount ← remainder n w.bits
      let result ← rotateLeft v amount w
      let carry := result &&& 1 != 0
      return some (result, Arithmetic.rotateFlags n carry (Arithmetic.topBit result w != carry))
    | .ror => do
      let amount ← remainder n w.bits
      let back ← subtract w.bits amount
      let amount ← remainder back w.bits
      let result ← rotateLeft v amount w
      return some (result, Arithmetic.rotateFlags n (Arithmetic.topBit result w)
        (Arithmetic.topBit result w != (result &&& (w.signBit >>> 1) != 0)))
    | .rcl | .rcr => .ok (Arithmetic.shift op value count w carryIn)
    | .shl | .sal => do
      let wide ← shiftLeftDouble v.toNat n
      let result := UInt64.ofNat wide &&& w.mask
      let out ← shiftRightDouble wide w.bits
      let carry := 1 &&& out != 0
      return some (result,
        Arithmetic.shiftFlags n carry (Arithmetic.topBit result w != carry) result w)
    | .shr => do
      let result ← shiftRight v n
      let before ← subtract n 1
      let out ← shiftRight v before
      return some (result,
        Arithmetic.shiftFlags n (out &&& 1 != 0) (Arithmetic.topBit v w) result w)
    | .sar => do
      let signed := (w.signExtend v).toInt64
      let shifted ← shiftRightSigned signed n
      let result := shifted.toUInt64 &&& w.mask
      let before ← subtract n 1
      let out ← shiftRightSigned signed before
      return some (result,
        Arithmetic.shiftFlags n (out.toUInt64 &&& 1 != 0) false result w)

theorem shiftCount_lt (count : UInt64) (w : Width) : Arithmetic.shiftCount count w < 64 := by
  unfold Arithmetic.shiftCount
  rw [UInt64.toNat_and]
  split_ifs
  · exact lt_of_le_of_lt Nat.and_le_right (by decide)
  · exact lt_of_le_of_lt Nat.and_le_right (by decide)

variable {w : Width}

theorem rotateLeft_eq (v : UInt64) {n : Nat} (hw : w.bytes ≤ 8) (hn : n < w.bits) :
    rotateLeft v n w = .ok (Arithmetic.rotateLeft v n w) := by
  have hbits := Width.bits_le hw
  unfold rotateLeft Arithmetic.rotateLeft
  rw [Width.wordBits_eq hw]
  split_ifs with h0 h64
  · rfl
  · have hmask : w.mask = 0xFFFF_FFFF_FFFF_FFFF := by
      cases w with
      | byte | word | dword => exact absurd h64 (by decide)
      | _ => rfl
    have hand (x : UInt64) : x &&& 0xFFFF_FFFF_FFFF_FFFF = x := UInt64.and_neg_one
    rw [hmask, hand, h64]
  · rw [shiftLeft_ok v (by omega), ok_bind, subtract_ok hn.le, ok_bind, shiftRight_ok v (by omega)]
    rfl

theorem shift_eq (op : ShiftOp) (value count : UInt64) (hw : w.bytes ≤ 8) (carryIn : Bool) :
    shift op value count w carryIn = .ok (Arithmetic.shift op value count w carryIn) := by
  have hbits := Width.bits_le hw
  have hpos := w.bits_pos
  have hn := shiftCount_lt count w
  unfold shift Arithmetic.shift
  generalize Arithmetic.shiftCount count w = n at hn
  generalize value &&& w.mask = v
  dsimp only
  rw [Width.wordBits_eq hw]
  by_cases h0 : n = 0
  · rw [if_pos h0, if_pos h0]
  · rw [if_neg h0, if_neg h0]
    have hone : 1 ≤ n := Nat.one_le_iff_ne_zero.2 h0
    cases op with
    | rol =>
      dsimp only
      rw [remainder_ok hpos.ne', ok_bind, rotateLeft_eq v hw (Nat.mod_lt _ hpos)]
      rfl
    | ror =>
      dsimp only
      rw [remainder_ok hpos.ne', ok_bind, subtract_ok (Nat.mod_lt _ hpos).le, ok_bind,
        remainder_ok hpos.ne', ok_bind, rotateLeft_eq v hw (Nat.mod_lt _ hpos)]
      rfl
    | rcl => rfl
    | rcr => rfl
    | shl | sal =>
      dsimp only
      rw [shiftLeftDouble_ok v.toNat_lt (by omega) (by omega), ok_bind, shiftRightDouble_ok (by omega)]
      rfl
    | shr =>
      dsimp only
      rw [shiftRight_ok v hn, ok_bind, subtract_ok hone, ok_bind, shiftRight_ok v (by omega)]
      rfl
    | sar =>
      dsimp only
      rw [shiftRightSigned_ok _ hn, ok_bind, subtract_ok hone, ok_bind,
        shiftRightSigned_ok _ (by omega)]
      rfl

/-! Products and quotients. -/

/-- `Arithmetic.mulUnsigned` in double words. -/
def mulUnsigned (a b : UInt64) (w : Width) : Except Crash Arithmetic.Product := do
  let product ← fit 128 (a.toNat * b.toNat)
  let top ← shiftRightDouble product w.bits
  let high := UInt64.ofNat top &&& w.mask
  return { low := UInt64.ofNat product &&& w.mask, high, overflow := high != 0 }

def mulSigned (a b : UInt64) (w : Width) : Except Crash Arithmetic.Product := do
  let product ← fitSigned 128 (w.toInt a * w.toInt b)
  let low := UInt64.ofInt product &&& w.mask
  let top ← shiftRightDoubleSigned product w.bits
  return { low, high := UInt64.ofInt top &&& w.mask, overflow := w.toInt low != product }

def joined (high low : UInt64) (w : Width) : Except Crash Nat := do
  let raised ← shiftLeftDouble high.toNat w.bits
  return raised ||| low.toNat

def divUnsigned (high low divisor : UInt64) (w : Width) :
    Except Crash (Option (UInt64 × UInt64)) :=
  if divisor = 0 then .ok none
  else do
    let dividend ← joined high low w
    let quotient ← quotient dividend divisor.toNat
    if w.mask.toNat < quotient then return none
    else
      let rest ← remainder dividend divisor.toNat
      return some (UInt64.ofNat quotient, UInt64.ofNat rest)

/-- `Arithmetic.divSigned` in double words. The sign of the dividend is spread over its double word
by moving it to the top and back. -/
def divSigned (high low divisor : UInt64) (w : Width) :
    Except Crash (Option (UInt64 × UInt64)) :=
  if divisor = 0 then .ok none
  else do
    let pair ← joined high low w
    let spare ← subtract 128 (2 * w.bits)
    let raised ← shiftLeftDouble pair spare
    let dividend ← shiftRightDoubleSigned (Int.bmod raised (2 ^ 128)) spare
    match quotientSigned? dividend (w.toInt divisor) with
    | none => return none
    | some quotient =>
      let below ← subtract w.bits 1
      let limit ← shiftLeftDouble 1 below
      if quotient < -(limit : Int) ∨ (limit : Int) ≤ quotient then return none
      else
        let rest ← remainderSigned dividend (w.toInt divisor)
        return some (UInt64.ofInt quotient &&& w.mask, UInt64.ofInt rest &&& w.mask)

theorem mulUnsigned_eq (a b : UInt64) (hw : w.bytes ≤ 8) :
    mulUnsigned a b w = .ok (Arithmetic.mulUnsigned a b w) := by
  have hbits := Width.bits_le hw
  have hproduct : a.toNat * b.toNat < 2 ^ 128 := by
    rw [show 2 ^ 128 = 2 ^ 64 * 2 ^ 64 by decide]
    exact Nat.mul_lt_mul'' a.toNat_lt b.toNat_lt
  unfold mulUnsigned Arithmetic.mulUnsigned
  rw [fit_ok hproduct, ok_bind, shiftRightDouble_ok (by omega), ok_bind, Nat.shiftRight_eq_div_pow,
    Width.modulus_eq hw]
  rfl

theorem mulSigned_eq (a b : UInt64) (hw : w.bytes ≤ 8) :
    mulSigned a b w = .ok (Arithmetic.mulSigned a b w) := by
  have hbits := Width.bits_le hw
  have hproduct : |w.toInt a * w.toInt b| ≤ 2 ^ 63 * 2 ^ 63 := by
    have hfactor (v : UInt64) : |w.toInt v| ≤ 2 ^ 63 :=
      abs_le.2 ⟨w.toInt_lower v, (w.toInt_upper v).le⟩
    rw [abs_mul]
    exact mul_le_mul (hfactor a) (hfactor b) (abs_nonneg _) (by norm_num)
  obtain ⟨hlower, hupper⟩ := abs_le.1 hproduct
  unfold mulSigned Arithmetic.mulSigned
  dsimp only
  rw [fitSigned_ok (by omega) (by omega), ok_bind, shiftRightDoubleSigned_ok _ (by omega), ok_bind,
    Int.shiftRight_eq_div_pow, Width.modulus_eq hw, Int.fdiv_eq_ediv_of_nonneg _ (by positivity)]
  rfl

theorem joined_eq {high low : UInt64} (hw : w.bytes ≤ 8) (hlow : low.toNat < w.modulus) :
    joined high low w = .ok (high.toNat * w.modulus + low.toNat) := by
  have hbits := Width.bits_le hw
  rw [Width.modulus_eq hw] at hlow ⊢
  unfold joined
  rw [shiftLeftDouble_ok high.toNat_lt (by omega) (by omega), ok_bind, ← Nat.shiftLeft_add_eq_or_of_lt hlow,
    Nat.shiftLeft_eq]
  rfl

theorem divUnsigned_eq {high low : UInt64} (divisor : UInt64) (hw : w.bytes ≤ 8)
    (hlow : low.toNat < w.modulus) :
    divUnsigned high low divisor w = .ok (Arithmetic.divUnsigned high low divisor w) := by
  unfold divUnsigned Arithmetic.divUnsigned
  by_cases h0 : divisor = 0
  · rw [if_pos h0]
    simp only [h0, true_or, if_true]
  · have hd : divisor.toNat ≠ 0 := fun h => h0 (UInt64.toNat_inj.1 h)
    rw [if_neg h0, joined_eq hw hlow, ok_bind, quotient_ok hd, ok_bind]
    simp only [h0, false_or]
    split_ifs
    · rfl
    · rw [remainder_ok hd]
      rfl

theorem bmod_scaled (n : Int) {h k : Nat} (hk : 0 < k) :
    Int.bmod (n * k) (2 * h * k) = Int.bmod n (2 * h) * k := by
  have hk' : (0 : Int) < k := by exact_mod_cast hk
  have hrest : n * k % ((2 * h * k : Nat) : Int) = n % ((2 * h : Nat) : Int) * k := by
    push_cast
    rw [mul_comm n, mul_comm (2 * (h : Int)), Int.mul_emod_mul_of_pos _ _ hk', mul_comm]
  have hhalf : (((2 * h * k : Nat) : Int) + 1) / 2 = h * k := by
    push_cast
    rw [mul_assoc]
    omega
  have hhalf' : (((2 * h : Nat) : Int) + 1) / 2 = h := by omega
  rw [Int.bmod_def, Int.bmod_def, hrest, hhalf, hhalf']
  by_cases hlt : n % ((2 * h : Nat) : Int) < h
  · rw [if_pos hlt, if_pos (by gcongr)]
  · rw [if_neg hlt, if_neg (by rw [mul_lt_mul_iff_left₀ hk']; exact hlt)]
    push_cast
    ring

/-- A number moved to the top of a double word and back is what it is in two's complement. -/
theorem bmod_shifted (n : Nat) {size spare : Nat} (hsize : 0 < size) (h : size + spare = 128) :
    Int.bmod (n <<< spare : Nat) (2 ^ 128) >>> spare = Int.bmod n (2 ^ size) := by
  obtain ⟨half, rfl⟩ : ∃ half, size = half + 1 := ⟨size - 1, by omega⟩
  have hpos : 0 < 2 ^ spare := by positivity
  have hmodulus : 2 ^ 128 = 2 * 2 ^ half * 2 ^ spare := by rw [← h, pow_add, pow_succ']
  rw [Nat.shiftLeft_eq, hmodulus, Nat.cast_mul, bmod_scaled _ hpos, Int.shiftRight_eq_div_pow,
    Int.mul_ediv_cancel _ (by exact_mod_cast hpos.ne'), pow_succ']

theorem divSigned_eq {high low divisor : UInt64} (hw : w.bytes ≤ 8) (hhigh : high.toNat < w.modulus)
    (hlow : low.toNat < w.modulus) (hdivisor : divisor.toNat < w.modulus) :
    divSigned high low divisor w = .ok (Arithmetic.divSigned high low divisor w) := by
  have hbits := Width.bits_le hw
  have hpos := w.bits_pos
  have hmodulus := Width.modulus_eq hw
  unfold divSigned Arithmetic.divSigned
  by_cases h0 : divisor = 0
  · rw [if_pos h0]
    simp only [h0, true_or, if_true]
  · have hd := Width.toInt_ne_zero h0 hdivisor
    have hspare : 2 * w.bits + (128 - 2 * w.bits) = 128 := by omega
    have hdouble : w.modulus * w.modulus = 2 ^ (2 * w.bits) := by rw [hmodulus, ← pow_add, two_mul]
    have hpair : high.toNat * w.modulus + low.toNat < 2 ^ (2 * w.bits) := by
      rw [← hdouble]
      nlinarith
    rw [if_neg h0, joined_eq hw hlow, ok_bind, subtract_ok (by omega), ok_bind,
      shiftLeftDouble_ok hpair (by omega) hspare.le, ok_bind, shiftRightDoubleSigned_ok _ (by omega), ok_bind,
      bmod_shifted _ (by omega) hspare, ← hdouble]
    dsimp only
    generalize Int.bmod (high.toNat * w.modulus + low.toNat : Nat) (w.modulus * w.modulus) = dividend
    have hlimit : 1 <<< (w.bits - 1) = w.modulus / 2 := by
      rw [hmodulus, Nat.shiftLeft_eq, one_mul, Nat.pow_sub_one (by decide) hpos.ne']
    have hbound : w.modulus / 2 ≤ 2 ^ 63 := by
      rw [← hlimit, Nat.shiftLeft_eq, one_mul]
      exact Nat.pow_le_pow_right (by decide) (by omega)
    unfold quotientSigned? remainderSigned fitSigned
    simp only [h0, false_or, if_neg hd]
    by_cases hfit : -2 ^ (128 - 1) ≤ dividend.tdiv (w.toInt divisor) ∧
        dividend.tdiv (w.toInt divisor) < 2 ^ (128 - 1)
    · simp only [if_pos hfit, Except.toOption, ok_bind]
      rw [subtract_ok hpos, ok_bind, shiftLeftDouble_ok (show 1 < 2 ^ 1 by decide) (by omega) (by omega), ok_bind,
        hlimit]
      split_ifs <;> rfl
    · -- a quotient beyond a double word is beyond a word
      simp only [if_neg hfit, Except.toOption]
      rw [if_pos (by omega)]
      rfl

/-! Bits. -/

/-- Where the element of a bit string begins that holds the bit at an offset, counted in bytes from
the first element, and where in the element the bit is. -/
def bitElement (offset : Int) (w : Width) : Except Crash (Int × Nat) := do
  let element ← quotientEuclid offset w.bits
  let start ← fitSigned 64 (element * w.bytes)
  let bit ← remainderEuclid offset w.bits
  return (start, bit.toNat)

def leadingZeros (v : UInt64) : Nat := if v = 0 then 64 else 63 - v.toNat.log2

def highestBit (v : UInt64) : Except Crash Nat := subtract 63 (leadingZeros v)

/-- A word put together from bytes that stand at `i` and above. -/
def assemble : Nat → List UInt8 → Except Crash UInt64
  | _, [] => .ok 0
  | i, b :: rest => do
    let here ← shiftLeft b.toUInt64 (8 * i)
    let above ← assemble (i + 1) rest
    return here ||| above

theorem bitElement_eq {offset : Int} (w : Width) (hlower : -2 ^ 63 ≤ offset)
    (hupper : offset < 2 ^ 63) : bitElement offset w =
      .ok (offset.fdiv w.bits * w.bytes, (offset.fmod w.bits).toNat) := by
  have hpos : (0 : Int) < w.bits := by exact_mod_cast w.bits_pos
  have hbounds : -2 ^ 63 ≤ offset / w.bits ∧ offset / w.bits < 2 ^ 63 ∧
      -2 ^ 63 ≤ offset / w.bits * w.bytes ∧ offset / w.bits * w.bytes < 2 ^ 63 := by
    cases w <;> simp only [Width.bits, Width.bytes] <;> omega
  obtain ⟨hl, hu, hl', hu'⟩ := hbounds
  have hfit : fitSigned 64 (offset / w.bits) = .ok (offset / w.bits) := fitSigned_ok hl hu
  unfold bitElement quotientEuclid remainderEuclid
  rw [if_neg hpos.ne', if_neg hpos.ne', hfit, ok_bind, fitSigned_ok hl' hu', ok_bind, ok_bind,
    Int.fdiv_eq_ediv_of_nonneg _ hpos.le, Int.fmod_eq_emod_of_nonneg _ hpos.le]
  rfl

theorem highestBit_eq {v : UInt64} (h : v ≠ 0) : highestBit v = .ok v.toNat.log2 := by
  have hv : v.toNat ≠ 0 := fun h0 => h (UInt64.toNat_inj.1 h0)
  have hlog : v.toNat.log2 < 64 := (Nat.log2_lt hv).2 v.toNat_lt
  unfold highestBit leadingZeros
  rw [if_neg h, subtract_ok (by omega), Nat.sub_sub_self (by omega)]

/-- Eight bytes have room in a word. -/
theorem assemble_eq {i : Nat} {bytes : List UInt8} (h : i + bytes.length ≤ 8) :
    assemble i bytes = .ok (LittleEndian.toWord bytes <<< UInt64.ofNat (8 * i)) := by
  induction bytes generalizing i with
  | nil => simp [assemble, LittleEndian.toWord]
  | cons b rest ih =>
    simp only [List.length_cons] at h
    have hamount : ∀ n < 64, UInt64.ofNat n < 64 := by decide
    have hrest : LittleEndian.toWord rest <<< UInt64.ofNat (8 * (i + 1)) =
        (LittleEndian.toWord rest <<< 8) <<< UInt64.ofNat (8 * i) := by
      cases rest with
      | nil => simp [LittleEndian.toWord]
      | cons c rest =>
        simp only [List.length_cons] at h
        rw [← UInt64.shiftLeft_add (by decide) (hamount (8 * i) (by omega)), Nat.mul_succ,
          Nat.add_comm, UInt64.ofNat_add]
        · rfl
        · have hsum := hamount (8 + 8 * i) (by omega)
          rwa [UInt64.ofNat_add] at hsum
    unfold assemble
    rw [shiftLeft_ok _ (by omega), ok_bind, ih (by omega), ok_bind, LittleEndian.toWord,
      UInt64.shiftLeft_or, hrest]
    rfl

end Guarded

end LongMode
