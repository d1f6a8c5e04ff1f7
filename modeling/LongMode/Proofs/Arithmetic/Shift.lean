import LongMode.Proofs.Arithmetic.Rotation
/-!
Shifts and rotates of words as operations on bit vectors, at every count: what they make of the
vector, the bit that ends up in the carry, and the other flags.
-/

namespace LongMode

namespace ShiftOp

/-- The result of a shift or rotation by `m`, and the carry. The carry is the last bit shifted out,
or the bit that a rotation has moved across the end; two rotations take the carry along as the top
bit of the vector. -/
def moved {n : Nat} (op : ShiftOp) (x : BitVec n) (m : Nat) (c : Bool) : BitVec n × Bool :=
  match op with
  | shl | sal => (x <<< m, decide (m ≤ n) && x.getLsbD (n - m))
  | shr => (x >>> m, decide (m ≤ n) && x.getLsbD (m - 1))
  | sar => (x.sshiftRight m, if m ≤ n then x.getLsbD (m - 1) else x.msb)
  | rol => (x.rotateLeft (m % n), (x.rotateLeft (m % n)).getLsbD 0)
  | ror => (x.rotateRight (m % n), (x.rotateRight (m % n)).msb)
  | rcl =>
    let y := (BitVec.cons c x).rotateLeft (m % (n + 1))
    (y.setWidth n, y.msb)
  | rcr =>
    let y := (BitVec.cons c x).rotateRight (m % (n + 1))
    (y.setWidth n, y.msb)

/-- The overflow flag for a count of one. -/
def overflows {n : Nat} (op : ShiftOp) (x : BitVec n) (c : Bool) : Bool :=
  let (r, carry) := op.moved x 1 c
  match op with
  | shl | sal => x.msb != r.msb
  | shr => x.msb
  | sar => false
  | rol | rcl => r.msb != carry
  | ror => r.msb != r.getLsbD (n - 2)
  | rcr => x.msb != c

/-- The flags that the operation defines: a rotation leaves those that describe a result alone. -/
def flags {n : Nat} (op : ShiftOp) (x : BitVec n) (m : Nat) (c : Bool) : Flags :=
  let (r, carry) := op.moved x m c
  let rotated : Flags :=
    { carry := some carry, overflow := if m = 1 then some (op.overflows x c) else none }
  match op with
  | rol | ror | rcl | rcr => rotated
  | shl | sal | shr | sar =>
    { rotated with
      zero := some (r == 0), sign := some r.msb
      parity := some (decide (Even (Arithmetic.ones r.toNat))) }

end ShiftOp

namespace Arithmetic

/-- The count that takes part: six bits for a quadword and five otherwise. -/
def countAt (w : Width) (count : UInt64) : Nat :=
  count.toNat % if w = .qword then 64 else 32

theorem shiftCount_eq (count : UInt64) (w : Width) : shiftCount count w = countAt w count := by
  unfold shiftCount countAt
  rw [UInt64.toNat_and]
  split_ifs
  · exact Nat.and_two_pow_sub_one_eq_mod _ 6
  · exact Nat.and_two_pow_sub_one_eq_mod _ 5

section

variable {w : Width} {x : BitVec w.bits} {k m : Nat} {c : Bool}

theorem rotateLeft_ofVector (hw : w.bytes ≤ 8) (hk : k < w.bits) :
    rotateLeft (w.ofVector x) k w = w.ofVector (x.rotateLeft k) := by
  have hbits := Width.bits_le hw
  unfold rotateLeft
  split_ifs with h0
  · rw [h0, rotateLeft_zero]
  · refine Width.and_mask_eq_ofVector hw fun i hi => ?_
    rw [UInt64.toNat_or, Nat.testBit_or, testBit_shiftLeft _ (by omega), Width.wordBits_eq hw,
      testBit_shiftRight _ (by omega), Width.testBit_ofVector hw, Width.testBit_ofVector hw,
      BitVec.getLsbD_rotateLeft, Nat.mod_eq_of_lt hk, decide_eq_true (by omega : i < 64)]
    by_cases h : i < k
    · simp [h, show ¬ k ≤ i by omega]
    · simp [h, hi, show k ≤ i by omega, BitVec.getLsbD_of_ge x (w.bits - k + i) (by omega)]

theorem rotateRight_ofVector (hw : w.bytes ≤ 8) (m : Nat) :
    rotateLeft (w.ofVector x) ((w.bits - m % w.bits) % w.bits) w =
      w.ofVector (x.rotateRight m) := by
  rw [rotateLeft_ofVector hw (Nat.mod_lt _ w.bits_pos), BitVec.rotateLeft_mod_eq_rotateLeft,
    rotateLeft_sub_mod _ _ w.bits_pos]

theorem shl_ofVector (hw : w.bytes ≤ 8) (m : Nat) :
    UInt64.ofNat ((w.ofVector x).toNat <<< m) &&& w.mask = w.ofVector (x <<< m) := by
  apply UInt64.toNat_inj.1
  rw [Width.toNat_and_mask, Width.modulus_eq hw, UInt64.toNat_ofNat', Width.toNat_ofVector hw,
    Width.toNat_ofVector hw, BitVec.toNat_shiftLeft,
    Nat.mod_mod_of_dvd _ (pow_dvd_pow 2 (Width.bits_le hw))]

theorem shr_ofVector (hw : w.bytes ≤ 8) (hm : m < 64) :
    w.ofVector x >>> UInt64.ofNat m = w.ofVector (x >>> m) := by
  apply UInt64.toNat_inj.1
  rw [UInt64.toNat_shiftRight, UInt64.toNat_ofNat_of_lt' (lt_trans hm (by decide)),
    Nat.mod_eq_of_lt hm, Width.toNat_ofVector hw, Width.toNat_ofVector hw, BitVec.toNat_ushiftRight]

/-- A word extended by its sign. -/
theorem toBitVec_signExtend (hw : w.bytes ≤ 8) (x : BitVec w.bits) :
    (w.signExtend (w.ofVector x)).toBitVec = x.signExtend 64 := by
  apply BitVec.eq_of_toInt_eq
  have hnumber : (w.signExtend (w.ofVector x)).toBitVec.toInt = Int.bmod x.toNat (2 ^ w.bits) := by
    have h := toInt_eq_number hw (w.ofVector x)
    rwa [Width.toNat_ofVector hw] at h
  rw [hnumber, BitVec.toInt_signExtend_of_le (Width.bits_le hw), BitVec.toInt_eq_toNat_bmod]

theorem toBitVec_shiftRight_signed (v : UInt64) (hm : m < 64) :
    (v.toInt64 >>> Int64.ofNat m).toUInt64.toBitVec = v.toBitVec.sshiftRight m := by
  have hcount : (Int64.ofNat m).toBitVec.smod 64 = BitVec.ofNat 64 m := by
    revert m
    decide
  change (v.toInt64 >>> Int64.ofNat m).toBitVec = _
  rw [Int64.toBitVec_shiftRight, hcount, BitVec.sshiftRight', BitVec.toNat_ofNat,
    Nat.mod_eq_of_lt (by omega)]
  rfl

/-- A signed shift of the extended word: behind its last bit comes the sign. -/
theorem testBit_sar (hw : w.bytes ≤ 8) (hm : m < 64) {i : Nat} (hi : i < 64) :
    ((w.signExtend (w.ofVector x)).toInt64 >>> Int64.ofNat m).toUInt64.toNat.testBit i =
      if m + i < w.bits then x.getLsbD (m + i) else x.msb := by
  have hbits := Width.bits_le hw
  have hmsb : (x.signExtend 64).msb = x.msb := by
    rw [BitVec.msb_signExtend, decide_eq_true (by decide : 0 < 64), Bool.true_and]
    split_ifs with h
    · rw [BitVec.msb_eq_getMsbD_zero, Nat.sub_eq_zero_of_le hbits]
    · rfl
  change BitVec.getLsbD (UInt64.toBitVec _) i = _
  rw [toBitVec_shiftRight_signed _ hm, toBitVec_signExtend hw, BitVec.getLsbD_sshiftRight,
    BitVec.getLsbD_signExtend, hmsb, decide_eq_false (by omega : ¬64 ≤ i), Bool.not_false,
    Bool.true_and]
  split_ifs with h64 hin hin
  · rw [decide_eq_true h64, Bool.true_and]
  · rw [decide_eq_true h64, Bool.true_and]
  · omega
  · rfl

theorem sar_ofVector (hw : w.bytes ≤ 8) (hm : m < 64) :
    ((w.signExtend (w.ofVector x)).toInt64 >>> Int64.ofNat m).toUInt64 &&& w.mask =
      w.ofVector (x.sshiftRight m) := by
  have hbits := Width.bits_le hw
  refine Width.and_mask_eq_ofVector hw fun i hi => ?_
  rw [testBit_sar hw hm (by omega), BitVec.getLsbD_sshiftRight, decide_eq_false (by omega),
    Bool.not_false, Bool.true_and]

/-! The loops that rotate through the carry, one bit at a time. -/

theorem carryLeft_step (hw : w.bytes ≤ 8) (x : BitVec w.bits) (c : Bool) :
    ((w.ofVector x <<< 1) ||| (if c then 1 else 0)) &&& w.mask =
      w.ofVector (((BitVec.cons c x).rotateLeft 1).setWidth w.bits) := by
  have hbits := Width.bits_le hw
  have hpos := w.bits_pos
  refine Width.and_mask_eq_ofVector hw fun i hi => ?_
  have hin : (if c then 1 else 0 : UInt64).toNat.testBit i = (c && decide (i = 0)) := by
    cases c with
    | false => exact Nat.zero_testBit i
    | true => exact Bool.eq_iff_iff.2 (Nat.testBit_one_eq_true_iff_self_eq_zero.trans (by simp))
  have hup : (w.ofVector x <<< 1).toNat.testBit i = (decide (1 ≤ i) && x.getLsbD (i - 1)) := by
    have h := testBit_shiftLeft (w.ofVector x) (k := 1) (by decide) i
    rwa [decide_eq_true (by omega), Bool.true_and, Width.testBit_ofVector hw] at h
  rw [UInt64.toNat_or, Nat.testBit_or, hin, hup, BitVec.getLsbD_setWidth,
    BitVec.getLsbD_rotateLeft_of_le (by omega), decide_eq_true hi, Bool.true_and]
  by_cases h0 : i = 0
  · rw [decide_eq_true (by omega : i < 1), cond_true, BitVec.getLsbD_cons, if_pos (by omega)]
    simp [h0]
  · rw [decide_eq_false (by omega : ¬i < 1), cond_false, BitVec.getLsbD_cons, if_neg (by omega)]
    simp [h0, Nat.one_le_iff_ne_zero, hi.le]

theorem msb_rotateLeft_cons (x : BitVec w.bits) (c : Bool) :
    ((BitVec.cons c x).rotateLeft 1).msb = x.msb := by
  have hpos := w.bits_pos
  rw [BitVec.msb_eq_getLsbD_last, BitVec.getLsbD_rotateLeft_of_le (by omega),
    decide_eq_false (by omega), cond_false, decide_eq_true (by omega), Bool.true_and,
    BitVec.getLsbD_cons, if_neg (by omega), BitVec.msb_eq_getLsbD_last, Nat.add_sub_cancel]

theorem carryLeft_ofVector (hw : w.bytes ≤ 8) (k : Nat) (x : BitVec w.bits) (c : Bool) :
    carryLeft w k (w.ofVector x, c) =
      (w.ofVector (((BitVec.cons c x).rotateLeft k).setWidth w.bits),
        ((BitVec.cons c x).rotateLeft k).msb) := by
  induction k generalizing x c with
  | zero =>
    rw [rotateLeft_zero, BitVec.setWidth_cons, BitVec.msb_cons]
    rfl
  | succ k ih =>
    rw [carryLeft, carryLeft_step hw, Width.topBit_ofVector hw, ← msb_rotateLeft_cons x c, ih,
      BitVec.cons_msb_setWidth, rotateLeft_rotateLeft, Nat.add_comm 1 k]

theorem carryRight_step (hw : w.bytes ≤ 8) (x : BitVec w.bits) (c : Bool) :
    ((w.ofVector x >>> 1) ||| (if c then w.signBit else 0)) =
      w.ofVector (((BitVec.cons c x).rotateRight 1).setWidth w.bits) := by
  have hbits := Width.bits_le hw
  have hpos := w.bits_pos
  apply UInt64.toNat_inj.1
  apply Nat.eq_of_testBit_eq
  intro i
  have hin : (if c then w.signBit else 0 : UInt64).toNat.testBit i =
      (c && decide (i = w.bits - 1)) := by
    cases c with
    | false => exact Nat.zero_testBit i
    | true =>
      rw [if_pos rfl, signBit_eq hw, toNat_bit (by omega), Nat.testBit_two_pow, Bool.true_and,
        decide_eq_decide]
      exact eq_comm
  have hdown : (w.ofVector x >>> 1).toNat.testBit i = x.getLsbD (1 + i) := by
    have h := testBit_shiftRight (w.ofVector x) (k := 1) (by decide) i
    rwa [Width.testBit_ofVector hw] at h
  rw [UInt64.toNat_or, Nat.testBit_or, hin, hdown, Width.testBit_ofVector hw,
    BitVec.getLsbD_setWidth]
  by_cases hi : i < w.bits
  · rw [getLsbD_rotateRight_mod _ 1 (by omega), Nat.mod_eq_of_lt (by omega), BitVec.getLsbD_cons]
    by_cases hlast : i = w.bits - 1
    · rw [if_pos (by omega), BitVec.getLsbD_of_ge x (1 + i) (by omega)]
      simp [hlast, hpos]
    · rw [if_neg (by omega), Nat.add_comm]
      simp [hlast, hi]
  · rw [BitVec.getLsbD_of_ge x (1 + i) (by omega)]
    simp [hi, show i ≠ w.bits - 1 by omega]

theorem msb_rotateRight_cons (x : BitVec w.bits) (c : Bool) :
    ((BitVec.cons c x).rotateRight 1).msb = x.getLsbD 0 := by
  have hpos := w.bits_pos
  rw [BitVec.msb_eq_getLsbD_last, getLsbD_rotateRight_mod _ 1 (by omega), Nat.add_sub_cancel,
    Nat.mod_self, BitVec.getLsbD_cons, if_neg (by omega)]

theorem carryRight_ofVector (hw : w.bytes ≤ 8) (k : Nat) (x : BitVec w.bits) (c : Bool) :
    carryRight w k (w.ofVector x, c) =
      (w.ofVector (((BitVec.cons c x).rotateRight k).setWidth w.bits),
        ((BitVec.cons c x).rotateRight k).msb) := by
  induction k generalizing x c with
  | zero =>
    rw [rotateRight_zero, BitVec.setWidth_cons, BitVec.msb_cons]
    rfl
  | succ k ih =>
    rw [carryRight, carryRight_step hw, Width.lowBit_ofVector hw, ← msb_rotateRight_cons x c, ih,
      BitVec.cons_msb_setWidth, rotateRight_rotateRight, Nat.add_comm 1 k]

theorem rotateFlags_congr {carry carry' overflow overflow' : Bool} (hc : carry = carry')
    (ho : m = 1 → overflow = overflow') : rotateFlags m carry overflow =
      { carry := some carry', overflow := if m = 1 then some overflow' else none } := by
  rw [rotateFlags, hc]
  by_cases h : m = 1
  · rw [ho h]
  · rw [if_neg h, if_neg h]

theorem shiftFlags_ofVector (hw : w.bytes ≤ 8) (m : Nat) (carry overflow : Bool)
    (r : BitVec w.bits) :
    shiftFlags m carry overflow (w.ofVector r) w =
      { rotateFlags m carry overflow with
        zero := some (r == 0), sign := some r.msb
        parity := some (decide (Even (ones r.toNat))) } := by
  have hzero : (w.ofVector r == 0) = (r == 0) := by
    rw [Bool.eq_iff_iff, beq_iff_eq, beq_iff_eq, ← UInt64.toNat_inj, Width.toNat_ofVector hw,
      ← BitVec.toNat_inj]
    rfl
  rw [shiftFlags, hzero, Width.topBit_ofVector hw, evenParity_eq, Width.toNat_ofVector hw]

/-- The bit below the top one, which decides with it about the overflow of a rotation. -/
theorem nextBit_ofVector (hw : w.bytes ≤ 8) (x : BitVec w.bits) :
    (w.ofVector x &&& (w.signBit >>> 1) != 0) = x.getLsbD (w.bits - 2) := by
  have hbits := Width.bits_le hw
  have hbit : w.signBit >>> 1 = 1 <<< UInt64.ofNat (w.bits - 2) := by
    cases w with
    | byte | word | dword | qword => rfl
    | xmm | ymm => exact absurd hw (by decide)
  rw [hbit, and_bit (by omega), Width.testBit_ofVector hw]

theorem countAt_lt (w : Width) (count : UInt64) : countAt w count < 64 := by
  unfold countAt
  split_ifs <;> omega

/-! The last bit that a shift has moved out. -/

theorem shl_carry (hw : w.bytes ≤ 8) (x : BitVec w.bits) (m : Nat) :
    ((w.ofVector x).toNat <<< m).testBit w.bits =
      (decide (m ≤ w.bits) && x.getLsbD (w.bits - m)) := by
  rw [Nat.testBit_shiftLeft, Width.testBit_ofVector hw]

theorem shr_carry (hw : w.bytes ≤ 8) (x : BitVec w.bits) (hm : m < 64) :
    (w.ofVector x >>> UInt64.ofNat (m - 1) &&& 1 != 0) =
      (decide (m ≤ w.bits) && x.getLsbD (m - 1)) := by
  rw [shr_ofVector hw (by omega), Width.lowBit_ofVector hw, BitVec.getLsbD_ushiftRight,
    Nat.add_zero]
  by_cases h : m ≤ w.bits
  · rw [decide_eq_true h, Bool.true_and]
  · rw [decide_eq_false h, Bool.false_and, BitVec.getLsbD_of_ge _ _ (by omega)]

theorem sar_carry (hw : w.bytes ≤ 8) (x : BitVec w.bits) (h0 : m ≠ 0) (hm : m < 64) :
    (((w.signExtend (w.ofVector x)).toInt64 >>> Int64.ofNat (m - 1)).toUInt64 &&& 1 != 0) =
      if m ≤ w.bits then x.getLsbD (m - 1) else x.msb := by
  have h := and_bit (i := 0) (by decide)
    ((w.signExtend (w.ofVector x)).toInt64 >>> Int64.ofNat (m - 1)).toUInt64
  rw [testBit_sar hw (by omega) (by decide), Nat.add_zero] at h
  refine h.trans (if_congr ?_ rfl rfl)
  omega

/-- A shift is that of the vector, with its flags. -/
theorem shift_ofVector (hw : w.bytes ≤ 8) (op : ShiftOp) (value count : UInt64) (c : Bool) :
    shift op value count w c =
      let x := w.vector value
      let m := countAt w count
      if m = 0 then none else some (w.ofVector (op.moved x m c).1, op.flags x m c) := by
  have hlt := countAt_lt w count
  have hpos := w.bits_pos
  unfold shift
  rw [shiftCount_eq, ← Width.ofVector_vector hw, Width.wordBits_eq hw]
  dsimp only
  generalize w.vector value = x
  generalize countAt w count = m at hlt ⊢
  split_ifs with h0
  · rfl
  congr 1
  cases op with
  | rol =>
    dsimp only
    rw [rotateLeft_ofVector hw (Nat.mod_lt _ hpos), Width.lowBit_ofVector hw,
      Width.topBit_ofVector hw]
    refine Prod.ext rfl (rotateFlags_congr rfl ?_)
    rintro rfl
    rfl
  | ror =>
    dsimp only
    rw [rotateRight_ofVector hw, ← BitVec.rotateRight_mod_eq_rotateRight, nextBit_ofVector hw,
      Width.topBit_ofVector hw]
    refine Prod.ext rfl (rotateFlags_congr rfl ?_)
    rintro rfl
    rfl
  | rcl =>
    dsimp only
    rw [carryLeft_ofVector hw, Width.topBit_ofVector hw]
    refine Prod.ext rfl (rotateFlags_congr rfl ?_)
    rintro rfl
    rfl
  | rcr =>
    dsimp only
    rw [carryRight_ofVector hw, Width.topBit_ofVector hw]
    exact Prod.ext rfl (rotateFlags_congr rfl fun _ => rfl)
  | shl | sal =>
    have hoverflow : m = 1 → ((x <<< m).msb != (decide (m ≤ w.bits) && x.getLsbD (w.bits - m))) =
        (x.msb != (x <<< 1).msb) := by
      rintro rfl
      rw [decide_eq_true (by omega : 1 ≤ w.bits), Bool.true_and, ← BitVec.msb_eq_getLsbD_last,
        bne_comm]
    dsimp only
    rw [shl_ofVector hw, shl_carry hw, Width.topBit_ofVector hw, shiftFlags_ofVector hw,
      rotateFlags_congr rfl hoverflow]
    rfl
  | shr =>
    dsimp only
    rw [shr_ofVector hw hlt, shr_carry hw x hlt, Width.topBit_ofVector hw,
      shiftFlags_ofVector hw, rotateFlags_congr rfl fun _ => rfl]
    rfl
  | sar =>
    dsimp only
    rw [sar_ofVector hw hlt, sar_carry hw x h0 hlt, shiftFlags_ofVector hw,
      rotateFlags_congr rfl fun _ => rfl]
    rfl

end

end Arithmetic

end LongMode
