import LongMode.Proofs.Guarded.Words
/-!
Products of double width, and the division that undoes them, as calculations with numbers. A word
stands for a number below a power of two, or for one in two's complement; every number has a word
that agrees with it in the low bits, but only one that fits is what its word stands for.
-/

namespace LongMode.Arithmetic

/-- What `bits` bits stand for. -/
def number (signed : Bool) (bits n : Nat) : Int := if signed then Int.bmod n (2 ^ bits) else n

/-- The numbers that `bits` bits can stand for. -/
def Fits (signed : Bool) (bits : Nat) (x : Int) : Prop :=
  if signed then -2 ^ (bits - 1) ≤ x ∧ x < 2 ^ (bits - 1) else 0 ≤ x ∧ x < 2 ^ bits

instance (signed : Bool) (bits : Nat) (x : Int) : Decidable (Fits signed bits x) :=
  inferInstanceAs (Decidable (if signed then _ else _))

section

variable {signed : Bool} {bits n : Nat} {x : Int}

theorem two_pow_halves (h : 0 < bits) : (2 : Int) ^ bits = 2 * 2 ^ (bits - 1) := by
  rw [← pow_succ', Nat.sub_add_cancel h]

/-- A word stands for the one fitting number that agrees with it in its bits. -/
theorem number_eq_iff (h : 0 < bits) (hn : n < 2 ^ bits) :
    number signed bits n = x ↔ Fits signed bits x ∧ (2 ^ bits : Int) ∣ x - n := by
  cases signed with
  | false =>
    simp only [number, Fits, Bool.false_eq_true, if_false]
    have hn' : (n : Int) < 2 ^ bits := by exact_mod_cast hn
    constructor
    · rintro rfl
      exact ⟨⟨by positivity, hn'⟩, by simp⟩
    · rintro ⟨⟨hl, hu⟩, hd⟩
      have hmod := Int.emod_eq_emod_iff_emod_sub_eq_zero.2 (Int.emod_eq_zero_of_dvd hd)
      rw [Int.emod_eq_of_lt hl hu, Int.emod_eq_of_lt (by positivity) hn'] at hmod
      exact hmod.symm
  | true =>
    have hl : (2 * (2 : Int) ^ (bits - 1)) / 2 = 2 ^ (bits - 1) := by omega
    have hu : (2 * (2 : Int) ^ (bits - 1) + 1) / 2 = 2 ^ (bits - 1) := by omega
    simp only [number, Fits, if_true]
    rw [Int.bmod_eq_iff (by positivity), ← and_assoc]
    push_cast
    rw [two_pow_halves h, hl, hu]

theorem number_fits (h : 0 < bits) (hn : n < 2 ^ bits) : Fits signed bits (number signed bits n) :=
  ((number_eq_iff h hn).1 rfl).1

theorem number_eq_zero (h : 0 < bits) (hn : n < 2 ^ bits) : number signed bits n = 0 ↔ n = 0 := by
  rw [number_eq_iff h hn, zero_sub, dvd_neg]
  constructor
  · rintro ⟨-, hd⟩
    exact Nat.eq_zero_of_dvd_of_lt (by exact_mod_cast hd) hn
  · rintro rfl
    exact ⟨by cases signed <;> simp [Fits], dvd_zero _⟩

/-- Different words stand for different numbers. -/
theorem number_injective {k : Nat} (h : 0 < bits) (hn : n < 2 ^ bits) (hk : k < 2 ^ bits)
    (heq : number signed bits n = number signed bits k) : n = k := by
  have hdiff : (2 ^ bits : Int) ∣ k - n := by
    have hdn := ((number_eq_iff h hn).1 heq).2
    have hdk := ((number_eq_iff h hk).1 (rfl : number signed bits k = _)).2
    simpa using dvd_sub hdn hdk
  have hmod : (k : Int) % 2 ^ bits = n % 2 ^ bits :=
    Int.emod_eq_emod_iff_emod_sub_eq_zero.2 (Int.emod_eq_zero_of_dvd hdiff)
  rw [Int.emod_eq_of_lt (by positivity) (by exact_mod_cast hk),
    Int.emod_eq_of_lt (by positivity) (by exact_mod_cast hn)] at hmod
  exact_mod_cast hmod.symm

theorem fits_natCast : Fits false bits n ↔ n < 2 ^ bits := by
  have h : ((n : Int) < 2 ^ bits) ↔ n < 2 ^ bits := by exact_mod_cast Iff.rfl
  rw [← h]
  exact and_iff_right (Int.natCast_nonneg n)

/-- A product has a place in twice the bits. -/
theorem Fits.mul {y : Int} (h : 0 < bits) (hx : Fits signed bits x) (hy : Fits signed bits y) :
    Fits signed (2 * bits) (x * y) := by
  cases signed with
  | false =>
    obtain ⟨hxl, hxu⟩ := hx
    obtain ⟨hyl, hyu⟩ := hy
    refine ⟨mul_nonneg hxl hyl, ?_⟩
    rw [two_mul, pow_add]
    exact mul_lt_mul'' hxu hyu hxl hyl
  | true =>
    have hbound : |x * y| ≤ 2 ^ (bits - 1) * 2 ^ (bits - 1) := by
      rw [abs_mul]
      exact mul_le_mul (abs_le.2 ⟨hx.1, hx.2.le⟩) (abs_le.2 ⟨hy.1, hy.2.le⟩) (abs_nonneg y)
        (by positivity)
    have hroom : (2 : Int) ^ (bits - 1) * 2 ^ (bits - 1) < 2 ^ (2 * bits - 1) := by
      rw [← pow_add]
      exact pow_lt_pow_right₀ one_lt_two (by omega)
    obtain ⟨hl, hu⟩ := abs_le.1 (hbound.trans hroom.le)
    exact ⟨hl, (le_abs_self _).trans_lt (hbound.trans_lt hroom)⟩

/-- A remainder has a place where the divisor has one. -/
theorem Fits.tmod {y : Int} (hx : 0 ≤ x ∨ signed = true) (hy : Fits signed bits y) (h0 : y ≠ 0) :
    Fits signed bits (x.tmod y) := by
  have hlt : |x.tmod y| < |y| := by
    rw [Int.abs_eq_natAbs, Int.abs_eq_natAbs, Int.natAbs_tmod]
    exact_mod_cast Nat.mod_lt _ (Int.natAbs_pos.2 h0)
  cases signed with
  | false =>
    have hpos : 0 ≤ x.tmod y := Int.tmod_nonneg y (hx.resolve_right nofun)
    rw [abs_of_nonneg hpos, abs_of_nonneg hy.1] at hlt
    exact ⟨hpos, hlt.trans hy.2⟩
  | true =>
    obtain ⟨hl, hu⟩ := abs_lt.1 (hlt.trans_le (abs_le.2 ⟨hy.1, hy.2.le⟩))
    exact ⟨hl.le, hu⟩

end

/-! Words at a width. -/

section

variable {w : Width} {signed : Bool}

theorem toNat_ofInt (x : Int) : ((UInt64.ofInt x).toNat : Int) = x % 2 ^ 64 := by
  have hword : (UInt64.ofInt x).toNat = (x % 2 ^ 64).toNat :=
    UInt64.toNat_ofNat_of_lt' (show _ < 2 ^ 64 by omega)
  rw [hword, Int.toNat_of_nonneg (by omega)]

/-- The word of a number has its low bits. -/
theorem word_eq_emod (hw : w.bytes ≤ 8) (x : Int) :
    ((UInt64.ofInt x &&& w.mask).toNat : Int) = x % 2 ^ w.bits := by
  rw [Width.toNat_and_mask, Width.modulus_eq hw, Int.natCast_emod, toNat_ofInt]
  push_cast
  exact Int.emod_emod_of_dvd x (pow_dvd_pow 2 (Width.bits_le hw))

theorem word_lt (hw : w.bytes ≤ 8) (v : UInt64) : (v &&& w.mask).toNat < 2 ^ w.bits := by
  rw [← Width.modulus_eq hw]
  exact Width.mask_lt w v

/-- A word stands for the number it was made from if that fits, and for no number that does not. -/
theorem number_word (hw : w.bytes ≤ 8) (x : Int) :
    number signed w.bits (UInt64.ofInt x &&& w.mask).toNat = x ↔ Fits signed w.bits x := by
  rw [number_eq_iff w.bits_pos (word_lt hw _), word_eq_emod hw]
  exact and_iff_left Int.dvd_self_sub_emod

theorem toInt_eq_number (hw : w.bytes ≤ 8) (v : UInt64) :
    w.toInt v = number true w.bits v.toNat := by
  rw [Width.toInt_eq, Width.modulus_eq hw]
  rfl

/-- The word of a number and the word of what is above it have the low bits of the number. -/
theorem dvd_sub_pair (hw : w.bytes ≤ 8) (x : Int) :
    (2 ^ (2 * w.bits) : Int) ∣ x - ((UInt64.ofInt (x / 2 ^ w.bits) &&& w.mask).toNat * 2 ^ w.bits +
      (UInt64.ofInt x &&& w.mask).toNat) := by
  rw [word_eq_emod hw, word_eq_emod hw]
  have hx := Int.mul_ediv_add_emod x (2 ^ w.bits)
  have hq := Int.mul_ediv_add_emod (x / 2 ^ w.bits) (2 ^ w.bits)
  refine ⟨x / 2 ^ w.bits / 2 ^ w.bits, ?_⟩
  rw [two_mul, pow_add]
  linear_combination -hx - 2 ^ w.bits * hq

end

/-! Products. -/

def mul (signed : Bool) (a b : UInt64) (w : Width) : Product :=
  if signed then mulSigned a b w else mulUnsigned a b w

def product (signed : Bool) (a b : UInt64) (w : Width) : Int :=
  number signed w.bits a.toNat * number signed w.bits b.toNat

section

variable {w : Width} {signed : Bool} {a b : UInt64}

theorem ofInt_natCast (n : Nat) : UInt64.ofInt n = UInt64.ofNat n := by
  have h := toNat_ofInt n
  apply UInt64.toNat_inj.1
  rw [UInt64.toNat_ofNat']
  omega

theorem mul_low (hw : w.bytes ≤ 8) :
    (mul signed a b w).low = UInt64.ofInt (product signed a b w) &&& w.mask := by
  cases signed with
  | false =>
    change UInt64.ofNat (a.toNat * b.toNat) &&& w.mask = _
    rw [← ofInt_natCast, Nat.cast_mul]
    rfl
  | true =>
    change UInt64.ofInt (w.toInt a * w.toInt b) &&& w.mask = _
    rw [toInt_eq_number hw, toInt_eq_number hw]
    rfl

theorem mul_high (hw : w.bytes ≤ 8) :
    (mul signed a b w).high = UInt64.ofInt (product signed a b w / 2 ^ w.bits) &&& w.mask := by
  cases signed with
  | false =>
    change UInt64.ofNat (a.toNat * b.toNat / w.modulus) &&& w.mask = _
    rw [← ofInt_natCast, Int.natCast_ediv, Nat.cast_mul, Width.modulus_eq hw, Nat.cast_pow]
    rfl
  | true =>
    change UInt64.ofInt ((w.toInt a * w.toInt b).fdiv w.modulus) &&& w.mask = _
    rw [toInt_eq_number hw, toInt_eq_number hw, Int.fdiv_eq_ediv_of_nonneg _ (by positivity),
      Width.modulus_eq hw, Nat.cast_pow]
    rfl

theorem product_fits (hw : w.bytes ≤ 8) (ha : a.toNat < w.modulus) (hb : b.toNat < w.modulus) :
    Fits signed (2 * w.bits) (product signed a b w) := by
  rw [Width.modulus_eq hw] at ha hb
  exact .mul w.bits_pos (number_fits w.bits_pos ha) (number_fits w.bits_pos hb)

/-- The two halves of a product are the product. -/
theorem number_mul (hw : w.bytes ≤ 8) (ha : a.toNat < w.modulus) (hb : b.toNat < w.modulus) :
    number signed (2 * w.bits)
        ((mul signed a b w).high.toNat * 2 ^ w.bits + (mul signed a b w).low.toNat) =
      product signed a b w := by
  have hpos := w.bits_pos
  have hd := dvd_sub_pair hw (product signed a b w)
  rw [mul_high hw, mul_low hw, number_eq_iff (by omega)]
  · push_cast
    exact ⟨product_fits hw ha hb, hd⟩
  · have hhigh := word_lt hw (UInt64.ofInt (product signed a b w / 2 ^ w.bits))
    have hlow := word_lt hw (UInt64.ofInt (product signed a b w))
    rw [two_mul, pow_add]
    nlinarith

theorem mulSigned_overflow (a b : UInt64) (hw : w.bytes ≤ 8) :
    (mulSigned a b w).overflow = true ↔ ¬Fits true w.bits (product true a b w) := by
  change (w.toInt (mul true a b w).low != w.toInt a * w.toInt b) = true ↔ _
  rw [bne_iff_ne, mul_low hw, toInt_eq_number hw, toInt_eq_number hw, toInt_eq_number hw,
    ← number_word hw]
  rfl

/-- The overflow is that the product has no place in the low half. -/
theorem mul_overflow (hw : w.bytes ≤ 8) (ha : a.toNat < w.modulus) (hb : b.toNat < w.modulus) :
    (mul signed a b w).overflow = true ↔ ¬Fits signed w.bits (product signed a b w) := by
  cases signed with
  | false =>
    obtain ⟨hl, hu⟩ : Fits false _ _ := product_fits hw ha hb
    rw [two_mul, pow_add] at hu
    have hpos : (0 : Int) < 2 ^ w.bits := by positivity
    have hhigh : ((mul false a b w).high.toNat : Int) = product false a b w / 2 ^ w.bits := by
      rw [mul_high hw, word_eq_emod hw, Int.emod_eq_of_lt (Int.ediv_nonneg hl hpos.le)]
      exact Int.ediv_lt_of_lt_mul hpos hu
    have hzero : (mul false a b w).high = 0 ↔ product false a b w / 2 ^ w.bits = 0 := by
      rw [← hhigh, Int.natCast_eq_zero, ← UInt64.toNat_inj]
      rfl
    have hbelow : product false a b w / 2 ^ w.bits = 0 ↔ Fits false w.bits (product false a b w) := by
      refine ⟨fun h => ⟨hl, ?_⟩, fun h => Int.ediv_eq_zero_of_lt h.1 h.2⟩
      rw [← one_mul (2 ^ w.bits)]
      exact Int.lt_mul_of_ediv_lt hpos (by omega)
    change ((mul false a b w).high != 0) = true ↔ _
    rw [bne_iff_ne, Ne, hzero, hbelow]
  | true => exact mulSigned_overflow a b hw

end

/-! Quotients. -/

def div (signed : Bool) (high low divisor : UInt64) (w : Width) : Option (UInt64 × UInt64) :=
  if signed then divSigned high low divisor w else divUnsigned high low divisor w

def dividend (signed : Bool) (high low : UInt64) (w : Width) : Int :=
  number signed (2 * w.bits) (high.toNat * 2 ^ w.bits + low.toNat)

section

variable {w : Width} {signed : Bool} {high low divisor quotient remainder : UInt64}

theorem word_natCast (hw : w.bytes ≤ 8) {n : Nat} (hn : n < 2 ^ w.bits) :
    UInt64.ofInt n &&& w.mask = UInt64.ofNat n := by
  have hsize : n < UInt64.size := hn.trans_le (Nat.pow_le_pow_right (by decide) (Width.bits_le hw))
  apply UInt64.toNat_inj.1
  rw [ofInt_natCast, Width.toNat_and_mask, UInt64.toNat_ofNat_of_lt' hsize, Width.modulus_eq hw,
    Nat.mod_eq_of_lt hn]

theorem mask_toNat (hw : w.bytes ≤ 8) : w.mask.toNat + 1 = 2 ^ w.bits := by
  cases w with
  | byte | word | dword | qword => rfl
  | xmm | ymm => exact absurd hw (by decide)

theorem divUnsigned_eq (hw : w.bytes ≤ 8) (hdivisor : divisor.toNat < 2 ^ w.bits) :
    divUnsigned high low divisor w =
      if divisor = 0 ∨ ¬Fits false w.bits ((dividend false high low w).tdiv divisor.toNat) then none
      else some (UInt64.ofInt ((dividend false high low w).tdiv divisor.toNat) &&& w.mask,
        UInt64.ofInt ((dividend false high low w).tmod divisor.toNat) &&& w.mask) := by
  have hmask := mask_toNat hw
  have hdividend : dividend false high low w = (high.toNat * w.modulus + low.toNat : Nat) := by
    rw [Width.modulus_eq hw]
    rfl
  unfold divUnsigned
  dsimp only
  rw [hdividend, ← Int.ofNat_tdiv, ← Int.ofNat_tmod]
  generalize high.toNat * w.modulus + low.toNat = n
  have hfits : w.mask.toNat < n / divisor.toNat ↔ ¬Fits false w.bits (n / divisor.toNat : Nat) := by
    rw [fits_natCast]
    omega
  by_cases h : divisor = 0 ∨ w.mask.toNat < n / divisor.toNat
  · rw [if_pos h, if_pos (h.imp_right hfits.1)]
  · rw [if_neg h, if_neg (mt (Or.imp_right hfits.2) h)]
    rw [not_or, not_lt] at h
    have hpos : 0 < divisor.toNat := Nat.pos_of_ne_zero fun h0 => h.1 (UInt64.toNat_inj.1 h0)
    rw [word_natCast hw (by omega), word_natCast hw ((Nat.mod_lt n hpos).trans hdivisor)]

theorem divSigned_eq (hw : w.bytes ≤ 8) :
    divSigned high low divisor w =
      if divisor = 0 ∨
        ¬Fits true w.bits ((dividend true high low w).tdiv (number true w.bits divisor.toNat)) then none
      else some
        (UInt64.ofInt ((dividend true high low w).tdiv (number true w.bits divisor.toNat)) &&& w.mask,
        UInt64.ofInt ((dividend true high low w).tmod (number true w.bits divisor.toNat)) &&& w.mask) := by
  have hdividend : dividend true high low w =
      Int.bmod (high.toNat * w.modulus + low.toNat : Nat) (w.modulus * w.modulus) := by
    rw [Width.modulus_eq hw, ← pow_add, ← two_mul]
    rfl
  have hlimit : ((w.modulus / 2 : Nat) : Int) = 2 ^ (w.bits - 1) := by
    rw [Width.modulus_eq hw, ← Nat.pow_sub_one two_pos.ne' w.bits_pos.ne', Nat.cast_pow]
    rfl
  unfold divSigned
  dsimp only
  rw [← hdividend, hlimit, toInt_eq_number hw]
  generalize (dividend true high low w).tdiv (number true w.bits divisor.toNat) = q
  have hfits : q < -2 ^ (w.bits - 1) ∨ 2 ^ (w.bits - 1) ≤ q ↔ ¬Fits true w.bits q := by
    change _ ↔ ¬(_ ∧ _)
    rw [not_and_or, not_le, not_lt]
  exact if_congr (or_congr_right hfits) rfl rfl

/-- The quotient cut off toward zero and the remainder that belongs to it, where the divisor is not
zero and the quotient fits. -/
theorem div_eq (hw : w.bytes ≤ 8) (hdivisor : divisor.toNat < w.modulus) :
    div signed high low divisor w =
      if divisor = 0 ∨ ¬Fits signed w.bits
          ((dividend signed high low w).tdiv (number signed w.bits divisor.toNat)) then none
      else some
        (UInt64.ofInt ((dividend signed high low w).tdiv (number signed w.bits divisor.toNat)) &&& w.mask,
        UInt64.ofInt ((dividend signed high low w).tmod (number signed w.bits divisor.toNat)) &&&
          w.mask) := by
  cases signed with
  | false => exact divUnsigned_eq hw (Width.modulus_eq hw ▸ hdivisor)
  | true => exact divSigned_eq hw

/-- There is no quotient by zero, and none beyond what a word can stand for. -/
theorem div_eq_none (hw : w.bytes ≤ 8) (hdivisor : divisor.toNat < w.modulus) :
    div signed high low divisor w = none ↔ number signed w.bits divisor.toNat = 0 ∨
      ¬Fits signed w.bits
        ((dividend signed high low w).tdiv (number signed w.bits divisor.toNat)) := by
  have hzero : number signed w.bits divisor.toNat = 0 ↔ divisor = 0 := by
    rw [number_eq_zero w.bits_pos (Width.modulus_eq hw ▸ hdivisor), ← UInt64.toNat_inj]
    rfl
  rw [div_eq hw hdivisor, hzero]
  split_ifs with h
  · exact iff_of_true rfl h
  · exact iff_of_false nofun h

theorem div_eq_some (hw : w.bytes ≤ 8) (hdivisor : divisor.toNat < w.modulus)
    (h : div signed high low divisor w = some (quotient, remainder)) :
    (quotient.toNat < 2 ^ w.bits ∧ number signed w.bits quotient.toNat =
      (dividend signed high low w).tdiv (number signed w.bits divisor.toNat)) ∧
    (remainder.toNat < 2 ^ w.bits ∧ number signed w.bits remainder.toNat =
      (dividend signed high low w).tmod (number signed w.bits divisor.toNat)) := by
  have hsign : 0 ≤ dividend signed high low w ∨ signed = true := by
    cases signed with
    | false => exact .inl (Int.natCast_nonneg _)
    | true => exact .inr rfl
  have hsome : ¬(number signed w.bits divisor.toNat = 0 ∨ ¬Fits signed w.bits _) :=
    (div_eq_none hw hdivisor).not.1 (by rw [h]; nofun)
  obtain ⟨h0, hfits⟩ := not_or.1 hsome
  have hrest : Fits signed w.bits
      ((dividend signed high low w).tmod (number signed w.bits divisor.toNat)) :=
    .tmod hsign (number_fits w.bits_pos (Width.modulus_eq hw ▸ hdivisor)) h0
  rw [div_eq hw hdivisor] at h
  split_ifs at h
  obtain ⟨rfl, rfl⟩ := Prod.mk.inj (Option.some.inj h)
  exact ⟨⟨word_lt hw _, (number_word hw _).2 (not_not.1 hfits)⟩, word_lt hw _,
    (number_word hw _).2 hrest⟩

/-- A product is divided by one of its factors without a remainder. -/
theorem div_product {factor : Int} (hw : w.bytes ≤ 8) (hdivisor : divisor.toNat < w.modulus)
    (h0 : divisor ≠ 0) (hfits : Fits signed w.bits factor)
    (h : dividend signed high low w = factor * number signed w.bits divisor.toNat) :
    ∃ quotient remainder, div signed high low divisor w = some (quotient, remainder) ∧
      (quotient.toNat < 2 ^ w.bits ∧ number signed w.bits quotient.toNat = factor) ∧
      remainder.toNat < 2 ^ w.bits ∧ number signed w.bits remainder.toNat = 0 := by
  have hzero : number signed w.bits divisor.toNat ≠ 0 := by
    rw [Ne, number_eq_zero w.bits_pos (Width.modulus_eq hw ▸ hdivisor)]
    exact fun h => h0 (UInt64.toNat_inj.1 h)
  have hquotient : (dividend signed high low w).tdiv (number signed w.bits divisor.toNat) = factor := by
    rw [h, Int.mul_tdiv_cancel _ hzero]
  have hrest : (dividend signed high low w).tmod (number signed w.bits divisor.toNat) = 0 := by
    rw [h, Int.mul_tmod_left]
  have hsome : div signed high low divisor w ≠ none := by
    rw [Ne, div_eq_none hw hdivisor, hquotient]
    exact not_or.2 ⟨hzero, not_not.2 hfits⟩
  obtain ⟨⟨quotient, remainder⟩, hdiv⟩ := Option.ne_none_iff_exists'.1 hsome
  obtain ⟨hq, hr⟩ := div_eq_some hw hdivisor hdiv
  rw [hquotient] at hq
  rw [hrest] at hr
  exact ⟨quotient, remainder, hdiv, hq, hr⟩

end

end LongMode.Arithmetic
