import LongMode.Arithmetic.Shift
import LongMode.Proofs.Arithmetic.Bits
/-!
Rotations of bit vectors, told by where each bit goes: a rotation to the left by `k` moves the bit
`i` to `i + k`, modulo the size. Words are vectors of the size of their width, and a rotation
through the carry is one of the vector that has the carry on top.
-/

namespace LongMode

namespace Arithmetic

section

variable {n : Nat} (x : BitVec n) (k : Nat) {i j : Nat}

@[simp] theorem rotateLeft_zero : x.rotateLeft 0 = x := by
  refine BitVec.eq_of_getLsbD_eq fun i hi => ?_
  simp [hi]

@[simp] theorem rotateRight_zero : x.rotateRight 0 = x := by
  refine BitVec.eq_of_getLsbD_eq fun i hi => ?_
  simp [hi]

theorem add_mod_of_lt (hi : i < n) :
    (i + k) % n = if i + k % n < n then i + k % n else i + k % n - n := by
  have hk : k % n < n := Nat.mod_lt _ (by omega)
  rw [← Nat.add_mod_mod]
  split_ifs with h
  · exact Nat.mod_eq_of_lt h
  · rw [Nat.mod_eq_sub_mod (by omega), Nat.mod_eq_of_lt (by omega)]

theorem getLsbD_rotateRight_mod (hi : i < n) :
    (x.rotateRight k).getLsbD i = x.getLsbD ((i + k) % n) := by
  have hk : k % n < n := Nat.mod_lt _ (by omega)
  rw [BitVec.getLsbD_rotateRight, add_mod_of_lt k hi]
  by_cases h : i < n - k % n
  · rw [decide_eq_true h, cond_true, if_pos (by omega), Nat.add_comm]
  · rw [decide_eq_false h, cond_false, if_neg (by omega), decide_eq_true hi, Bool.true_and]
    congr 1
    omega

theorem getLsbD_rotateLeft_mod (hi : i < n) :
    (x.rotateLeft k).getLsbD ((i + k) % n) = x.getLsbD i := by
  have hk : k % n < n := Nat.mod_lt _ (by omega)
  rw [BitVec.getLsbD_rotateLeft, add_mod_of_lt k hi]
  split_ifs with h
  · rw [decide_eq_false (by omega), cond_false, decide_eq_true h, Bool.true_and, Nat.add_sub_cancel]
  · rw [decide_eq_true (by omega), cond_true]
    congr 1
    omega

/-- Every bit comes from somewhere. -/
theorem exists_add_mod (hj : j < n) : ∃ i < n, (i + k) % n = j := by
  have hk : k % n < n := Nat.mod_lt _ (by omega)
  refine ⟨(j + (n - k % n)) % n, Nat.mod_lt _ (by omega), ?_⟩
  rw [Nat.mod_add_mod, ← Nat.add_mod_mod, Nat.add_assoc, Nat.sub_add_cancel hk.le,
    Nat.add_mod_right, Nat.mod_eq_of_lt hj]

@[simp] theorem rotateRight_rotateLeft : (x.rotateLeft k).rotateRight k = x := by
  refine BitVec.eq_of_getLsbD_eq fun i hi => ?_
  rw [getLsbD_rotateRight_mod _ k hi, getLsbD_rotateLeft_mod x k hi]

@[simp] theorem rotateLeft_rotateRight : (x.rotateRight k).rotateLeft k = x := by
  refine BitVec.eq_of_getLsbD_eq fun j hj => ?_
  obtain ⟨i, hi, rfl⟩ := exists_add_mod k hj
  rw [getLsbD_rotateLeft_mod _ k hi, getLsbD_rotateRight_mod x k hi]

theorem rotateLeft_rotateLeft (a b : Nat) :
    (x.rotateLeft a).rotateLeft b = x.rotateLeft (a + b) := by
  refine BitVec.eq_of_getLsbD_eq fun j hj => ?_
  obtain ⟨i, hi, rfl⟩ := exists_add_mod (a + b) hj
  have hmid : (i + a) % n < n := Nat.mod_lt _ (by omega)
  rw [getLsbD_rotateLeft_mod x (a + b) hi, ← Nat.add_assoc, ← Nat.mod_add_mod,
    getLsbD_rotateLeft_mod _ b hmid, getLsbD_rotateLeft_mod x a hi]

theorem rotateRight_rotateRight (a b : Nat) :
    (x.rotateRight a).rotateRight b = x.rotateRight (a + b) := by
  refine BitVec.eq_of_getLsbD_eq fun i hi => ?_
  have hmid : (i + b) % n < n := Nat.mod_lt _ (by omega)
  rw [getLsbD_rotateRight_mod _ b hi, getLsbD_rotateRight_mod x a hmid,
    getLsbD_rotateRight_mod x (a + b) hi, Nat.mod_add_mod, Nat.add_assoc, Nat.add_comm b]

/-- A rotation to the right is one to the left by what is left of the size. -/
theorem rotateLeft_sub_mod (hn : 0 < n) : x.rotateLeft (n - k % n) = x.rotateRight k := by
  have hk : k % n < n := Nat.mod_lt _ hn
  have hwhole : (k + (n - k % n)) % n = 0 := by
    rw [← Nat.mod_add_mod, Nat.add_sub_cancel' hk.le, Nat.mod_self]
  have h := rotateLeft_rotateLeft (x.rotateRight k) k (n - k % n)
  rwa [rotateLeft_rotateRight, ← BitVec.rotateLeft_mod_eq_rotateLeft (r := k + _), hwhole,
    rotateLeft_zero] at h

end

end Arithmetic

/-! Words as vectors. -/

namespace Width

def vector (w : Width) (v : UInt64) : BitVec w.bits := v.toBitVec.setWidth w.bits

/-- The word with a given low part and zeros above it. -/
def ofVector (w : Width) (x : BitVec w.bits) : UInt64 := UInt64.ofNat x.toNat

variable {w : Width} {v : UInt64} {x : BitVec w.bits}

theorem toNat_vector (w : Width) (v : UInt64) : (w.vector v).toNat = v.toNat % 2 ^ w.bits :=
  BitVec.toNat_setWidth _ _

theorem toNat_ofVector (hw : w.bytes ≤ 8) (x : BitVec w.bits) : (w.ofVector x).toNat = x.toNat :=
  UInt64.toNat_ofNat_of_lt' (x.isLt.trans_le (Nat.pow_le_pow_right (by decide) (bits_le hw)))

theorem vector_ofVector (hw : w.bytes ≤ 8) (x : BitVec w.bits) : w.vector (w.ofVector x) = x := by
  apply BitVec.eq_of_toNat_eq
  rw [toNat_vector, toNat_ofVector hw, Nat.mod_eq_of_lt x.isLt]

theorem ofVector_vector (hw : w.bytes ≤ 8) (v : UInt64) :
    w.ofVector (w.vector v) = v &&& w.mask := by
  apply UInt64.toNat_inj.1
  rw [toNat_ofVector hw, toNat_vector, toNat_and_mask, modulus_eq hw]

theorem ofVector_lt (hw : w.bytes ≤ 8) (x : BitVec w.bits) : (w.ofVector x).toNat < w.modulus := by
  rw [toNat_ofVector hw, modulus_eq hw]
  exact x.isLt

/-- A word cut to the width is that of the vector with its bits. -/
theorem and_mask_eq_ofVector (hw : w.bytes ≤ 8)
    (h : ∀ i < w.bits, v.toNat.testBit i = x.getLsbD i) : v &&& w.mask = w.ofVector x := by
  rw [← ofVector_vector hw]
  congr 1
  refine BitVec.eq_of_getLsbD_eq fun i hi => ?_
  rw [← h i hi, ← BitVec.testBit_toNat, toNat_vector, Nat.testBit_mod_two_pow, decide_eq_true hi,
    Bool.true_and]

theorem testBit_ofVector (hw : w.bytes ≤ 8) (x : BitVec w.bits) (i : Nat) :
    (w.ofVector x).toNat.testBit i = x.getLsbD i := by
  rw [toNat_ofVector hw, BitVec.testBit_toNat]

theorem lowBit_ofVector (hw : w.bytes ≤ 8) (x : BitVec w.bits) :
    (w.ofVector x &&& 1 != 0) = x.getLsbD 0 := by
  have h := Arithmetic.and_bit (i := 0) (by decide) (w.ofVector x)
  rwa [testBit_ofVector hw] at h

theorem topBit_ofVector (hw : w.bytes ≤ 8) (x : BitVec w.bits) :
    Arithmetic.topBit (w.ofVector x) w = x.msb := by
  rw [Arithmetic.topBit, Arithmetic.and_signBit hw, testBit_ofVector hw, BitVec.msb_eq_getLsbD_last]

end Width

end LongMode
