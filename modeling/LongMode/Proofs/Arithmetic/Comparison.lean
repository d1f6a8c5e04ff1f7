import LongMode.Condition
import LongMode.Proofs.Arithmetic.Total
/-!
A subtraction as a comparison. Its flags say how the two numbers relate, without a sign and with
one, and what the low bits of the difference look like; the conditions read these relations off.
-/

namespace LongMode

namespace Arithmetic

def difference (w : Width) (a b : UInt64) : Nat := (((a.toNat : Int) - b.toNat) % 2 ^ w.bits).toNat

end Arithmetic

open Arithmetic

/-- What a condition says about two words of a width that have been compared. Two conditions do not
look at the comparison: one always holds, the other is about a register. -/
def Condition.Compares (w : Width) (a b : UInt64) : Condition → Prop
  | above => b.toNat < a.toNat
  | notAbove => a.toNat ≤ b.toNat
  | carry => a.toNat < b.toNat
  | notCarry => b.toNat ≤ a.toNat
  | zero => a = b
  | notZero => a ≠ b
  | greater => number true w.bits b.toNat < number true w.bits a.toNat
  | greaterOrEqual => number true w.bits b.toNat ≤ number true w.bits a.toNat
  | less => number true w.bits a.toNat < number true w.bits b.toNat
  | lessOrEqual => number true w.bits a.toNat ≤ number true w.bits b.toNat
  | overflow => ¬Fits true w.bits (number true w.bits a.toNat - number true w.bits b.toNat)
  | notOverflow => Fits true w.bits (number true w.bits a.toNat - number true w.bits b.toNat)
  | sign => (difference w a b).testBit (w.bits - 1)
  | notSign => ¬(difference w a b).testBit (w.bits - 1)
  | parity => Even (ones (difference w a b))
  | notParity => ¬Even (ones (difference w a b))
  | counterZero | always => True

instance (w : Width) (a b : UInt64) : DecidablePred (Condition.Compares w a b) := fun c => by
  cases c <;> unfold Condition.Compares <;> infer_instance

namespace Arithmetic

variable {w : Width} {a b : UInt64}

theorem total_true_false (signed : Bool) (bits x y : Nat) :
    total signed true bits x y false = number signed bits x - number signed bits y := by
  rw [total, if_pos rfl, Bool.toNat_false, Nat.cast_zero, sub_zero]

/-- The low bits of a difference are what a subtraction without a borrow keeps. -/
theorem difference_eq_kept (w : Width) (a b : UInt64) :
    difference w a b = kept true w.bits a.toNat b.toNat false := by
  rw [kept, total_true_false]
  rfl

theorem difference_lt (w : Width) (a b : UInt64) : difference w a b < 2 ^ w.bits :=
  difference_eq_kept w a b ▸ kept_lt

/-- The difference, or what it is short of a borrow. -/
theorem difference_eq (ha : a.toNat < 2 ^ w.bits) (hb : b.toNat < 2 ^ w.bits) :
    (difference w a b : Int) =
      (a.toNat : Int) - b.toNat + if a.toNat < b.toNat then 2 ^ w.bits else 0 := by
  have ha' : (a.toNat : Int) < 2 ^ w.bits := by exact_mod_cast ha
  have hb' : (b.toNat : Int) < 2 ^ w.bits := by exact_mod_cast hb
  have h0 : 0 ≤ ((a.toNat : Int) - b.toNat) % 2 ^ w.bits := Int.emod_nonneg _ (by positivity)
  rw [difference, Int.toNat_of_nonneg h0]
  split_ifs with h
  · rw [← Int.add_emod_right, Int.emod_eq_of_lt (by omega) (by omega)]
  · rw [add_zero, Int.emod_eq_of_lt (by omega) (by omega)]

theorem difference_eq_zero (ha : a.toNat < 2 ^ w.bits) (hb : b.toNat < 2 ^ w.bits) :
    difference w a b = 0 ↔ a = b := by
  have ha' : (a.toNat : Int) < 2 ^ w.bits := by exact_mod_cast ha
  have hb' : (b.toNat : Int) < 2 ^ w.bits := by exact_mod_cast hb
  have heq := difference_eq ha hb
  rw [← UInt64.toNat_inj]
  split_ifs at heq <;> omega

/-- The sign of the difference is wrong where there is an overflow. -/
theorem less_iff (ha : a.toNat < 2 ^ w.bits) (hb : b.toNat < 2 ^ w.bits) :
    number true w.bits a.toNat < number true w.bits b.toNat ↔
      ((difference w a b).testBit (w.bits - 1) ≠
        decide ¬Fits true w.bits (number true w.bits a.toNat - number true w.bits b.toNat)) := by
  have hpos := w.bits_pos
  have hd := difference_lt w a b
  have hcast : ∀ n : Nat, 2 ^ (w.bits - 1) ≤ n ↔ (2 : Int) ^ (w.bits - 1) ≤ n :=
    fun n => by exact_mod_cast Iff.rfl
  have heq := difference_eq ha hb
  have ha' : (a.toNat : Int) < 2 ^ w.bits := by exact_mod_cast ha
  have hb' : (b.toNat : Int) < 2 ^ w.bits := by exact_mod_cast hb
  have hd' : (difference w a b : Int) < 2 ^ w.bits := by exact_mod_cast hd
  rw [testBit_top hpos hd, number_true_eq hpos ha, number_true_eq hpos hb, Ne, decide_eq_decide]
  simp only [Fits, if_true, hcast]
  rw [two_pow_halves hpos] at heq ha' hb' hd' ⊢
  split_ifs at heq ⊢ <;> omega

end Arithmetic

/-- The flags say how two words of a width relate. -/
structure Flags.Compared (w : Width) (a b : UInt64) (f : Flags) : Prop where
  carry : isOn f.carry = decide (a.toNat < b.toNat)
  zero : isOn f.zero = decide (a = b)
  sign : isOn f.sign = (difference w a b).testBit (w.bits - 1)
  overflow : isOn f.overflow =
    decide ¬Fits true w.bits (number true w.bits a.toNat - number true w.bits b.toNat)
  parity : isOn f.parity = decide (Even (ones (difference w a b)))

section

variable {w : Width} {a b : UInt64}

theorem Arithmetic.compared_sub (hw : w.bytes ≤ 8) (ha : a.toNat < w.modulus)
    (hb : b.toNat < w.modulus) (f : Flags) :
    Flags.Compared w a b (f.overlap (sub a b false w).2) := by
  have ha' : a.toNat < 2 ^ w.bits := by rwa [← Width.modulus_eq hw]
  have hb' : b.toNat < 2 ^ w.bits := by rwa [← Width.modulus_eq hw]
  rw [sub_eq_totalled hw, totalled, Nat.mod_eq_of_lt ha', Nat.mod_eq_of_lt hb',
    ← difference_eq_kept]
  constructor
  case carry =>
    have hborrow :
        exceeds false true w.bits a.toNat b.toNat false = decide (a.toNat < b.toNat) := by
      have hlt : (a.toNat : Int) < 2 ^ w.bits := by exact_mod_cast ha'
      rw [exceeds, total_true_false, ← decide_not, decide_eq_decide]
      simp only [Fits, number, Bool.false_eq_true, if_false]
      omega
    rw [Flags.overlap, Flags.zipWith, isOn_or, hborrow]
  case zero =>
    rw [Flags.overlap, Flags.zipWith, isOn_or, Bool.eq_iff_iff, beq_iff_eq, decide_eq_true_iff]
    exact difference_eq_zero ha' hb'
  case sign => rw [Flags.overlap, Flags.zipWith, isOn_or]
  case overflow =>
    rw [Flags.overlap, Flags.zipWith, isOn_or, exceeds, total_true_false, ← decide_not]
  case parity => rw [Flags.overlap, Flags.zipWith, isOn_or]

/-- Every condition on the flags of a comparison decides its relation. -/
theorem Flags.Compared.holds {f : Flags} (h : f.Compared w a b) (ha : a.toNat < 2 ^ w.bits)
    (hb : b.toNat < 2 ^ w.bits) {c : Condition} (hc : c ≠ .counterZero) (counter : UInt64) :
    c.holds f counter = decide (c.Compares w a b) := by
  have hcarry : isOn f.carry = true ↔ a.toNat < b.toNat := by rw [h.carry, decide_eq_true_iff]
  have hzero : isOn f.zero = true ↔ a = b := by rw [h.zero, decide_eq_true_iff]
  have hparity : isOn f.parity = true ↔ Even (ones (difference w a b)) := by
    rw [h.parity, decide_eq_true_iff]
  have hoverflow : isOn f.overflow = true ↔
      ¬Fits true w.bits (number true w.bits a.toNat - number true w.bits b.toNat) := by
    rw [h.overflow, decide_eq_true_iff]
  have hless : (isOn f.sign != isOn f.overflow) = true ↔
      number true w.bits a.toNat < number true w.bits b.toNat := by
    rw [h.sign, h.overflow, bne_iff_ne, less_iff ha hb]
  have hnot (x : Bool) : (!x) = true ↔ ¬x = true := by cases x <;> decide
  have hsame : (isOn f.sign == isOn f.overflow) = !(isOn f.sign != isOn f.overflow) :=
    (Bool.not_not _).symm
  have hword : a = b ↔ a.toNat = b.toNat := UInt64.toNat_inj.symm
  have hnumber : a = b ↔ number true w.bits a.toNat = number true w.bits b.toNat :=
    ⟨fun hab => by rw [hab], fun hab =>
      UInt64.toNat_inj.1 (number_injective w.bits_pos ha hb hab)⟩
  rw [Bool.eq_iff_iff, decide_eq_true_iff]
  cases c with
  | counterZero => exact absurd rfl hc
  | always => exact ⟨fun _ => trivial, fun _ => rfl⟩
  | carry => exact hcarry
  | zero => exact hzero
  | less => exact hless
  | overflow => exact hoverflow
  | sign => exact Bool.eq_iff_iff.1 h.sign
  | parity => exact hparity
  | notZero => exact (hnot _).trans (not_congr hzero)
  | notOverflow => exact ((hnot _).trans (not_congr hoverflow)).trans not_not
  | notSign => exact (hnot _).trans (not_congr (Bool.eq_iff_iff.1 h.sign))
  | notParity => exact (hnot _).trans (not_congr hparity)
  | notCarry => exact ((hnot _).trans (not_congr hcarry)).trans not_lt
  | above | notAbove =>
    simp only [Condition.holds, Condition.Compares, Bool.and_eq_true, Bool.or_eq_true, hnot, hcarry,
      hzero, hword]
    omega
  | greater | greaterOrEqual | lessOrEqual =>
    simp only [Condition.holds, Condition.Compares, Bool.and_eq_true, Bool.or_eq_true, hsame, hnot,
      hless, hzero, hnumber]
    omega

end

end LongMode
