import LongMode.Flags
import LongMode.Proofs.Arithmetic.Wide
import Mathlib.Data.Nat.Bitwise
/-!
Single bits of a word: the one that a mask picks, the sign, which says what the word stands for in
two's complement, and the ones of the low byte: the parity flag tells whether their count is even.
-/

namespace LongMode.Arithmetic

/-- The number of ones in the low byte. -/
def ones (n : Nat) : Nat := ((List.range 8).map fun i => (n.testBit i).toNat).sum

variable {w : Width} {a : UInt64} {n bits : Nat}

theorem toNat_bit {i : Nat} (hi : i < 64) : ((1 : UInt64) <<< UInt64.ofNat i).toNat = 2 ^ i := by
  rw [UInt64.toNat_shiftLeft, UInt64.toNat_ofNat_of_lt' (lt_trans hi (by decide)),
    Nat.mod_eq_of_lt hi, UInt64.toNat_one, Nat.one_shiftLeft]
  exact Nat.mod_eq_of_lt (Nat.pow_lt_pow_right (by decide) hi)

theorem and_bit {i : Nat} (hi : i < 64) (v : UInt64) :
    (v &&& (1 <<< UInt64.ofNat i) != 0) = v.toNat.testBit i := by
  rw [Bool.eq_iff_iff, bne_iff_ne, Ne, ← UInt64.toNat_inj, UInt64.toNat_and, toNat_bit hi,
    Nat.and_two_pow]
  cases v.toNat.testBit i <;> simp

theorem signBit_eq (hw : w.bytes ≤ 8) : w.signBit = 1 <<< UInt64.ofNat (w.bits - 1) := by
  cases w with
  | byte | word | dword | qword => rfl
  | xmm | ymm => exact absurd hw (by decide)

theorem and_signBit (hw : w.bytes ≤ 8) (v : UInt64) :
    (v &&& w.signBit != 0) = v.toNat.testBit (w.bits - 1) := by
  have hbits := Width.bits_le hw
  have hpos := w.bits_pos
  rw [signBit_eq hw, and_bit (by omega)]

theorem testBit_top (h : 0 < bits) (hn : n < 2 ^ bits) :
    n.testBit (bits - 1) = decide (2 ^ (bits - 1) ≤ n) := by
  have hpow := Nat.pow_pred_mul (x := 2) h
  have hlt : n / 2 ^ (bits - 1) < 2 := Nat.div_lt_of_lt_mul (by omega)
  rw [Nat.testBit_eq_decide_div_mod_eq, decide_eq_decide, Nat.mod_eq_of_lt hlt,
    ← Nat.one_le_div_iff (Nat.two_pow_pos _)]
  exact ⟨fun h1 => h1.ge, fun h1 => Nat.le_antisymm (Nat.le_of_lt_succ hlt) h1⟩

theorem number_true_eq (h : 0 < bits) (hn : n < 2 ^ bits) :
    number true bits n = if 2 ^ (bits - 1) ≤ n then (n : Int) - 2 ^ bits else n := by
  have hpow := two_pow_halves h
  have hn' : (n : Int) < 2 ^ bits := by exact_mod_cast hn
  have hiff : 2 ^ (bits - 1) ≤ n ↔ (2 : Int) ^ (bits - 1) ≤ n := by exact_mod_cast Iff.rfl
  rw [number_eq_iff h hn]
  simp only [Fits, if_true, hiff]
  split_ifs
  · exact ⟨by omega, -1, by ring⟩
  · exact ⟨by omega, by simp⟩

theorem testBit_shiftLeft (v : UInt64) {k : Nat} (hk : k < 64) (i : Nat) :
    (v <<< UInt64.ofNat k).toNat.testBit i =
      (decide (i < 64) && (decide (k ≤ i) && v.toNat.testBit (i - k))) := by
  rw [UInt64.toNat_shiftLeft, UInt64.toNat_ofNat_of_lt' (lt_trans hk (by decide)),
    Nat.mod_eq_of_lt hk, Nat.testBit_mod_two_pow, Nat.testBit_shiftLeft]

theorem testBit_shiftRight (v : UInt64) {k : Nat} (hk : k < 64) (i : Nat) :
    (v >>> UInt64.ofNat k).toNat.testBit i = v.toNat.testBit (k + i) := by
  rw [UInt64.toNat_shiftRight, UInt64.toNat_ofNat_of_lt' (lt_trans hk (by decide)),
    Nat.mod_eq_of_lt hk, Nat.testBit_shiftRight]

/-- Any eight bits folded over each other. -/
theorem folded_eq (b0 b1 b2 b3 b4 b5 b6 b7 : Bool) :
    (!((b0 ^^ b4) ^^ (b2 ^^ b6) ^^ ((b1 ^^ b5) ^^ (b3 ^^ b7)))) =
      decide (Even ([b0, b1, b2, b3, b4, b5, b6, b7].map Bool.toNat).sum) := by
  revert b0 b1 b2 b3 b4 b5 b6 b7
  decide

theorem evenParity_eq (v : UInt64) : evenParity v = decide (Even (ones v.toNat)) := by
  have hlow (u : UInt64) : (u &&& 1 == 0) = !u.toNat.testBit 0 := by
    rw [← and_bit (by decide), bne, Bool.not_not]
    rfl
  have h1 (u : UInt64) (j : Nat) : (u >>> 1).toNat.testBit j = u.toNat.testBit (1 + j) :=
    testBit_shiftRight u (by decide) j
  have h2 (u : UInt64) (j : Nat) : (u >>> 2).toNat.testBit j = u.toNat.testBit (2 + j) :=
    testBit_shiftRight u (by decide) j
  have h4 (u : UInt64) (j : Nat) : (u >>> 4).toNat.testBit j = u.toNat.testBit (4 + j) :=
    testBit_shiftRight u (by decide) j
  unfold evenParity
  dsimp only
  rw [hlow]
  simp only [UInt64.toNat_xor, Nat.testBit_xor, h1, h2, h4]
  exact folded_eq _ _ _ _ _ _ _ _

theorem and_mask_of_lt (ha : a.toNat < w.modulus) : a &&& w.mask = a := by
  rw [← UInt64.toNat_inj, Width.toNat_and_mask, Nat.mod_eq_of_lt ha]

end LongMode.Arithmetic
