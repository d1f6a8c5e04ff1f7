import LongMode.Arithmetic.Sum
import LongMode.Proofs.Arithmetic.Bits
/-!
Sums and differences as calculations with numbers, with a carry or a borrow taken in. The result
keeps the low bits of the total, and three flags tell where the total has no place: in the bits
without a sign, in the bits with one, and for the low four bits of the operands in four bits.
-/

namespace LongMode.Arithmetic

/-- The sum or the difference of what two words stand for, and of a carry or a borrow. -/
def total (signed subtract : Bool) (bits x y : Nat) (c : Bool) : Int :=
  if subtract then number signed bits x - number signed bits y - c.toNat
  else number signed bits x + number signed bits y + c.toNat

def exceeds (signed subtract : Bool) (bits x y : Nat) (c : Bool) : Bool :=
  !decide (Fits signed bits (total signed subtract bits x y c))

def kept (subtract : Bool) (bits x y : Nat) (c : Bool) : Nat :=
  (total false subtract bits x y c % 2 ^ bits).toNat

/-- The total of the low parts of two words, as a word, and what six flags say of it. -/
def totalled (subtract : Bool) (w : Width) (a b : UInt64) (c : Bool) : UInt64 × Flags :=
  let x := a.toNat % 2 ^ w.bits
  let y := b.toNat % 2 ^ w.bits
  let r := kept subtract w.bits x y c
  (UInt64.ofNat r,
    { carry := some (exceeds false subtract w.bits x y c)
      overflow := some (exceeds true subtract w.bits x y c)
      auxiliary := some (exceeds false subtract 4 (x % 2 ^ 4) (y % 2 ^ 4) c)
      zero := some (r == 0)
      sign := some (r.testBit (w.bits - 1))
      parity := some (decide (Even (ones r))) })

section

variable {subtract c : Bool} {bits x y : Nat}

theorem kept_eq : (kept subtract bits x y c : Int) = total false subtract bits x y c % 2 ^ bits :=
  Int.toNat_of_nonneg (Int.emod_nonneg _ (by positivity))

theorem kept_lt : kept subtract bits x y c < 2 ^ bits := by
  have h : total false subtract bits x y c % 2 ^ bits < 2 ^ bits :=
    Int.emod_lt_of_pos _ (by positivity)
  rw [← kept_eq] at h
  exact_mod_cast h

def carried (subtract c : Bool) : Int := if subtract then -c.toNat else c.toNat

/-- The bits that are kept and the carry or borrow out of them are the whole total. -/
theorem total_eq (subtract c : Bool) (hx : x < 2 ^ bits) (hy : y < 2 ^ bits) :
    total false subtract bits x y c =
      kept subtract bits x y c +
        2 ^ bits * carried subtract (exceeds false subtract bits x y c) := by
  have hx' : (x : Int) < 2 ^ bits := by exact_mod_cast hx
  have hy' : (y : Int) < 2 ^ bits := by exact_mod_cast hy
  have hc : c.toNat ≤ 1 := c.toNat_le
  rw [kept_eq]
  unfold exceeds
  by_cases h : Fits false bits (total false subtract bits x y c)
  · have h0 : carried subtract false = 0 := by cases subtract <;> rfl
    rw [Int.emod_eq_of_lt h.1 h.2, decide_eq_true h, Bool.not_true, h0, mul_zero, add_zero]
  · rw [decide_eq_false h, Bool.not_false]
    simp only [Fits, Bool.false_eq_true, if_false] at h
    cases subtract with
    | false =>
      simp only [total, carried, number, Bool.false_eq_true, if_false, Bool.toNat_true] at h ⊢
      rw [← Int.sub_emod_right, Int.emod_eq_of_lt (by omega) (by omega)]
      ring
    | true =>
      simp only [total, carried, number, Bool.false_eq_true, if_false, if_true,
        Bool.toNat_true] at h ⊢
      rw [← Int.add_emod_right, Int.emod_eq_of_lt (by omega) (by omega)]
      ring

/-- The signed total has no place when both operands have one sign and the kept bits have another;
where the second operand is taken away, it counts with the other sign. -/
theorem exceeds_signed (hpos : 0 < bits) (hx : x < 2 ^ bits) (hy : y < 2 ^ bits) :
    exceeds true subtract bits x y c =
      ((x.testBit (bits - 1) == (y.testBit (bits - 1) != subtract)) &&
        (x.testBit (bits - 1) != (kept subtract bits x y c).testBit (bits - 1))) := by
  have hk : kept subtract bits x y c < 2 ^ bits := kept_lt
  have heq := total_eq subtract c hx hy
  have hc : c.toNat ≤ 1 := c.toNat_le
  have hcast : ∀ n : Nat, 2 ^ (bits - 1) ≤ n ↔ (2 : Int) ^ (bits - 1) ≤ n :=
    fun n => by exact_mod_cast Iff.rfl
  rw [testBit_top hpos hx, testBit_top hpos hy, testBit_top hpos hk]
  unfold exceeds
  generalize kept subtract bits x y c = k at hk heq ⊢
  generalize exceeds false subtract bits x y c = out at heq
  have hx' : (x : Int) < 2 ^ bits := by exact_mod_cast hx
  have hy' : (y : Int) < 2 ^ bits := by exact_mod_cast hy
  have hk' : (k : Int) < 2 ^ bits := by exact_mod_cast hk
  unfold total at heq ⊢
  rw [number_true_eq hpos hx, number_true_eq hpos hy, Bool.eq_iff_iff]
  simp only [number, Bool.false_eq_true, if_false] at heq
  simp only [Fits, if_true, hcast, Bool.and_eq_true, beq_iff_eq, bne_iff_ne, ne_eq,
    decide_eq_decide, Bool.not_eq_true', decide_eq_false_iff_not]
  rw [two_pow_halves hpos] at heq hx' hy' hk' ⊢
  cases subtract <;> cases out <;>
    simp only [carried, Bool.false_eq_true, if_false, if_true, Bool.toNat_false, Bool.toNat_true,
      Bool.bne_false, Bool.bne_true, decide_eq_decide, ← decide_not] at heq ⊢ <;>
    split_ifs <;> omega

/-- A carry into the fifth bit shows there, since this bit of the total is the sum of three. -/
theorem exceeds_four (hbits : 4 < bits) (hx : x < 2 ^ bits) (hy : y < 2 ^ bits) :
    exceeds false subtract 4 (x % 2 ^ 4) (y % 2 ^ 4) c =
      (x.testBit 4 ^^ y.testBit 4 ^^ (kept subtract bits x y c).testBit 4) := by
  have hpow : (2 : Int) ^ bits = 32 * 2 ^ (bits - 5) := by
    rw [show (32 : Int) = 2 ^ 5 by rfl, ← pow_add, Nat.add_sub_cancel' hbits]
  have hxor (b0 b1 b2 : Bool) :
      (b0 ^^ b1 ^^ b2) = decide ((b0.toNat + b1.toNat + b2.toNat) % 2 = 1) := by
    revert b0 b1 b2
    decide
  have heq := total_eq subtract c hx hy
  have hc : c.toNat ≤ 1 := c.toNat_le
  generalize kept subtract bits x y c = k at heq ⊢
  generalize exceeds false subtract bits x y c = out at heq
  rw [hpow] at heq
  rw [hxor, Nat.toNat_testBit, Nat.toNat_testBit, Nat.toNat_testBit, exceeds, ← decide_not,
    decide_eq_decide]
  simp only [Fits, total, number, Bool.false_eq_true, if_false] at heq ⊢
  cases subtract <;> cases out <;>
    simp only [carried, Bool.false_eq_true, if_false, if_true, Bool.toNat_false, Bool.toNat_true,
      Nat.reducePow] at heq ⊢ <;>
    omega

end

/-! Totals of joined words: `u` and `v` above the `p` bits of `x` and `y`. -/

section

variable {signed : Bool} {p q x y u v : Nat} {low n : Int}

/-- A number above some more bits fits where the number itself does. -/
theorem fits_append (hq : 0 < q) (hl : 0 ≤ low) (hu : low < 2 ^ p) :
    Fits signed (p + q) (low + 2 ^ p * n) ↔ Fits signed q n := by
  have hpos : (0 : Int) < 2 ^ p := by positivity
  have hdiv : (low + 2 ^ p * n) / 2 ^ p = n := by
    rw [Int.add_mul_ediv_left _ _ hpos.ne', Int.ediv_eq_zero_of_lt hl hu, zero_add]
  have hle (k : Int) : 2 ^ p * k ≤ low + 2 ^ p * n ↔ k ≤ n := by
    rw [mul_comm, ← Int.le_ediv_iff_mul_le hpos, hdiv]
  have hlt (k : Int) : low + 2 ^ p * n < 2 ^ p * k ↔ n < k := by
    rw [mul_comm _ k, ← Int.ediv_lt_iff_lt_mul hpos, hdiv]
  cases signed with
  | false =>
    have h0 := hle 0
    rw [mul_zero] at h0
    simp only [Fits, Bool.false_eq_true, if_false, pow_add, hlt, h0]
  | true =>
    have hsize : p + q - 1 = p + (q - 1) := by omega
    simp only [Fits, if_true, hsize, pow_add, ← mul_neg, hle, hlt]

/-- The sign of a joined word is that of its upper part. -/
theorem number_append (hq : 0 < q) (hx : x < 2 ^ p) (hu : u < 2 ^ q) :
    number signed (p + q) (x + 2 ^ p * u) = x + 2 ^ p * number signed q u := by
  have hlt : x + 2 ^ p * u < 2 ^ (p + q) := by
    rw [pow_add]
    nlinarith
  obtain ⟨hfits, k, hk⟩ := (number_eq_iff hq hu).1 (rfl : number signed q u = _)
  rw [number_eq_iff (by omega) hlt]
  refine ⟨(fits_append hq (by positivity) (by exact_mod_cast hx)).2 hfits, k, ?_⟩
  rw [pow_add]
  push_cast
  linear_combination 2 ^ p * hk

/-- The low parts are dealt with first, and their carry or borrow goes into the high parts. -/
theorem total_append (signed subtract c : Bool) (hq : 0 < q) (hx : x < 2 ^ p) (hy : y < 2 ^ p)
    (hu : u < 2 ^ q) (hv : v < 2 ^ q) :
    total signed subtract (p + q) (x + 2 ^ p * u) (y + 2 ^ p * v) c =
      kept subtract p x y c +
        2 ^ p * total signed subtract q u v (exceeds false subtract p x y c) := by
  have hlow := total_eq subtract c hx hy
  generalize exceeds false subtract p x y c = out at hlow ⊢
  unfold total at hlow ⊢
  rw [number_append hq hx hu, number_append hq hy hv]
  cases subtract <;>
    simp only [number, carried, Bool.false_eq_true, if_false, if_true] at hlow ⊢ <;>
    linear_combination hlow

theorem exceeds_append (signed subtract c : Bool) (hq : 0 < q) (hx : x < 2 ^ p) (hy : y < 2 ^ p)
    (hu : u < 2 ^ q) (hv : v < 2 ^ q) :
    exceeds signed subtract (p + q) (x + 2 ^ p * u) (y + 2 ^ p * v) c =
      exceeds signed subtract q u v (exceeds false subtract p x y c) := by
  have hk : (kept subtract p x y c : Int) < 2 ^ p := by exact_mod_cast kept_lt
  rw [exceeds, total_append signed subtract c hq hx hy hu hv,
    decide_eq_decide.2 (fits_append hq (Int.natCast_nonneg _) hk)]
  rfl

/-- The low bits of a joined number. -/
theorem emod_append (hl : 0 ≤ low) (hu : low < 2 ^ p) :
    (low + 2 ^ p * n) % 2 ^ (p + q) = low + 2 ^ p * (n % 2 ^ q) := by
  have hpos : (0 : Int) < 2 ^ p := by positivity
  have hmod : 0 ≤ n % 2 ^ q := Int.emod_nonneg _ (by positivity)
  have hlt : n % 2 ^ q < 2 ^ q := Int.emod_lt_of_pos _ (by positivity)
  have hsplit : low + 2 ^ p * n = low + 2 ^ p * (n % 2 ^ q) + 2 ^ (p + q) * (n / 2 ^ q) := by
    rw [pow_add]
    linear_combination -2 ^ p * Int.emod_add_mul_ediv n (2 ^ q)
  rw [hsplit, Int.add_mul_emod_self_left, Int.emod_eq_of_lt (by positivity)]
  rw [pow_add]
  nlinarith

theorem kept_append (subtract c : Bool) (hq : 0 < q) (hx : x < 2 ^ p) (hy : y < 2 ^ p)
    (hu : u < 2 ^ q) (hv : v < 2 ^ q) :
    kept subtract (p + q) (x + 2 ^ p * u) (y + 2 ^ p * v) c =
      kept subtract p x y c + 2 ^ p * kept subtract q u v (exceeds false subtract p x y c) := by
  have hk : (kept subtract p x y c : Int) < 2 ^ p := by exact_mod_cast kept_lt
  zify
  rw [kept_eq, total_append false subtract c hq hx hy hu hv, emod_append (Int.natCast_nonneg _) hk,
    ← kept_eq]

end
/-! The words that the program calculates. -/

section

variable {w : Width} {subtract c : Bool} {a b r : UInt64}

theorem toNat_masked (hw : w.bytes ≤ 8) (v : UInt64) :
    (v &&& w.mask).toNat = v.toNat % 2 ^ w.bits := by
  rw [Width.toNat_and_mask, Width.modulus_eq hw]

theorem ofInt_sub (n : Int) (v : UInt64) : UInt64.ofInt (n - v.toNat) = UInt64.ofInt n - v := by
  have h := toNat_ofInt (n - v.toNat)
  have hn := toNat_ofInt n
  have hv := v.toNat_lt
  apply UInt64.toNat_inj.1
  rw [UInt64.toNat_sub]
  omega

/-- What the flags say of a result, told from its number. -/
theorem ofResult_eq (hw : w.bytes ≤ 8) (hr : r.toNat < 2 ^ w.bits) :
    Flags.ofResult r w =
      { zero := some (r.toNat == 0)
        sign := some (r.toNat.testBit (w.bits - 1))
        parity := some (decide (Even (ones r.toNat))) } := by
  have hmask : r &&& w.mask = r := and_mask_of_lt (Width.modulus_eq hw ▸ hr)
  have hzero : (r == 0) = (r.toNat == 0) := by
    rw [Bool.eq_iff_iff, beq_iff_eq, beq_iff_eq, ← UInt64.toNat_inj]
    rfl
  simp only [Flags.ofResult, hmask, hzero, and_signBit hw, evenParity_eq]

/-- The word of a total keeps its low bits. -/
theorem toNat_total (hw : w.bytes ≤ 8) (subtract c : Bool) (x y : Nat) :
    (UInt64.ofInt (total false subtract w.bits x y c) &&& w.mask).toNat =
      kept subtract w.bits x y c := by
  have h := word_eq_emod hw (total false subtract w.bits x y c)
  rw [← kept_eq] at h
  exact_mod_cast h

/-- The flags of a total, read off the words. -/
theorem totalled_eq (hw : w.bytes ≤ 8)
    (hr : r.toNat = kept subtract w.bits (a &&& w.mask).toNat (b &&& w.mask).toNat c) :
    totalled subtract w a b c = (r,
      { Flags.ofResult r w with
        carry := some
          (exceeds false subtract w.bits (a &&& w.mask).toNat (b &&& w.mask).toNat c)
        overflow := some
          (((a &&& w.mask &&& w.signBit != 0) == ((b &&& w.mask &&& w.signBit != 0) != subtract)) &&
            ((a &&& w.mask &&& w.signBit != 0) != (r &&& w.signBit != 0)))
        auxiliary := some (((a &&& w.mask) ^^^ (b &&& w.mask) ^^^ r) &&& 0x10 != 0) }) := by
  have hfour : (0x10 : UInt64) = 1 <<< UInt64.ofNat 4 := rfl
  have hbits : 4 < w.bits := by cases w <;> decide
  rw [ofResult_eq hw (hr ▸ kept_lt), hfour, and_bit (by decide), and_signBit hw, and_signBit hw,
    and_signBit hw, UInt64.toNat_xor, UInt64.toNat_xor, Nat.testBit_xor, Nat.testBit_xor, hr,
    ← exceeds_four hbits (word_lt hw a) (word_lt hw b),
    ← exceeds_signed w.bits_pos (word_lt hw a) (word_lt hw b), totalled, ← toNat_masked hw,
    ← toNat_masked hw, ← hr, UInt64.ofNat_toNat]

theorem add_eq_totalled (hw : w.bytes ≤ 8) (a b : UInt64) (c : Bool) :
    add a b c w = totalled false w a b c := by
  have htotal : total false false w.bits (a &&& w.mask).toNat (b &&& w.mask).toNat c =
      ((a &&& w.mask).toNat + (b &&& w.mask).toNat + c.toNat : Nat) := by
    simp only [total, number, Bool.false_eq_true, if_false, Nat.cast_add]
  have hr := toNat_total hw false c (a &&& w.mask).toNat (b &&& w.mask).toNat
  rw [htotal, ofInt_natCast] at hr
  rw [totalled_eq hw hr, add]
  dsimp only
  congr 2
  · have hmask := mask_toNat hw
    rw [exceeds, htotal, ← decide_not, Option.some_inj, decide_eq_decide, fits_natCast]
    omega
  · rw [and_signBit hw, and_signBit hw, and_signBit hw, and_signBit hw, UInt64.toNat_and,
      UInt64.toNat_xor, UInt64.toNat_xor, Nat.testBit_and, Nat.testBit_xor, Nat.testBit_xor]
    cases Nat.testBit _ _ <;> cases Nat.testBit _ _ <;> cases Nat.testBit _ _ <;> rfl

theorem sub_eq_totalled (hw : w.bytes ≤ 8) (a b : UInt64) (c : Bool) :
    sub a b c w = totalled true w a b c := by
  have htotal : total false true w.bits (a &&& w.mask).toNat (b &&& w.mask).toNat c =
      (a &&& w.mask).toNat - (b &&& w.mask).toNat - c.toNat := by
    simp only [total, number, Bool.false_eq_true, if_false, if_true]
  have hborrow : (c.toNat : Int) = (if c then 1 else 0 : UInt64).toNat := by cases c <;> rfl
  have hr := toNat_total hw true c (a &&& w.mask).toNat (b &&& w.mask).toNat
  rw [htotal, hborrow, ofInt_sub, ofInt_sub, ofInt_natCast, UInt64.ofNat_toNat] at hr
  rw [totalled_eq hw hr, sub]
  dsimp only
  congr 2
  · have hlt : ((a &&& w.mask).toNat : Int) < 2 ^ w.bits := by exact_mod_cast word_lt hw a
    rw [exceeds, htotal, ← decide_not, Option.some_inj, decide_eq_decide]
    simp only [Fits, Bool.false_eq_true, if_false]
    omega
  · rw [and_signBit hw, and_signBit hw, and_signBit hw, and_signBit hw, UInt64.toNat_and,
      UInt64.toNat_xor, UInt64.toNat_xor, Nat.testBit_and, Nat.testBit_xor, Nat.testBit_xor]
    cases Nat.testBit _ _ <;> cases Nat.testBit _ _ <;> cases Nat.testBit _ _ <;> rfl

end

end LongMode.Arithmetic
