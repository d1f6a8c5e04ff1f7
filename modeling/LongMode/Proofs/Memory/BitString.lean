import LongMode.Proofs.Memory
/-!
Memory as a string of bits, eight to a byte and the lowest first. A word that is read has the bits
that stand in its bytes, and storing it back with one bit changed changes one bit of the string.
-/

namespace LongMode

namespace LittleEndian

/-- The bytes of a word are its digits. -/
theorem getElem?_ofWord {n j : Nat} (h : j < n) (v : UInt64) :
    ∃ b, (ofWord n v)[j]? = some b ∧ b.toNat = v.toNat / 2 ^ (8 * j) % 2 ^ 8 := by
  induction n generalizing j v with
  | zero => omega
  | succ n ih =>
    cases j with
    | zero =>
      refine ⟨v.toUInt8, rfl, ?_⟩
      rw [UInt64.toNat_toUInt8, Nat.mul_zero, Nat.pow_zero, Nat.div_one]
    | succ j =>
      obtain ⟨b, hb, hn⟩ := ih (j := j) (by omega) (v >>> 8)
      have hshift : (v >>> 8).toNat = v.toNat / 2 ^ 8 := by
        rw [UInt64.toNat_shiftRight]
        exact Nat.shiftRight_eq_div_pow _ _
      refine ⟨b, by rw [ofWord, List.getElem?_cons_succ, hb], ?_⟩
      rw [hn, hshift, Nat.div_div_eq_div_mul, ← Nat.pow_add, Nat.mul_succ, Nat.add_comm]

end LittleEndian

namespace Memory

variable {m : Memory} {a x : UInt64} {w : Width} {u v : UInt64} {i n : Nat}

def bit (m : Memory) (a : UInt64) (n : Nat) : Bool := (m.peek a).toNat.testBit n

theorem toNat_offset {j : Nat} (h : j < 2 ^ 64) (a : UInt64) : (a + UInt64.ofNat j - a).toNat = j := by
  rw [UInt64.add_comm, UInt64.add_sub_cancel, UInt64.toNat_ofNat', Nat.mod_eq_of_lt h]

theorem add_offset (a x : UInt64) : a + UInt64.ofNat (x - a).toNat = x := by
  rw [UInt64.ofNat_toNat, UInt64.add_comm, UInt64.sub_add_cancel]

/-- Memory that is not strict can be read everywhere. -/
theorem read_of_lenient (hm : m.strict = false) (a : UInt64) (n : Nat) :
    m.read a n = .ok (m.dump a n) := by
  induction n generalizing a with
  | zero => rfl
  | succ n ih =>
    have hbyte : m.readByte a = .ok (m.peek a) := by simp [readByte, hm]
    rw [read, hbyte]
    dsimp only [ok_bind]
    rw [ih]
    rfl

theorem exists_readWord (hm : m.strict = false) (a : UInt64) (w : Width) :
    ∃ v, m.readWord a w = .ok v := by
  refine ⟨LittleEndian.toWord (m.dump a w.wordBytes), ?_⟩
  rw [readWord, read_of_lenient hm]
  rfl

/-- A word has the bits that stand in its bytes. -/
theorem testBit_of_readWord (hw : w.bytes ≤ 8) (h : m.readWord a w = .ok v) (hi : i < w.bits) :
    v.toNat.testBit i = m.bit (a + UInt64.ofNat (i / 8)) (i % 8) := by
  have hbytes : w.wordBytes = w.bytes := Nat.min_eq_left hw
  have hj : i / 8 < w.wordBytes := by
    have hbits : w.bits = 8 * w.bytes := rfl
    omega
  obtain ⟨b, hb, hn⟩ := LittleEndian.getElem?_ofWord hj v
  have hpeek := getElem?_dump m a hj
  rw [(stored_of_readWord h).inside, hb] at hpeek
  cases hpeek
  rw [bit, hn, Nat.testBit_mod_two_pow, Nat.testBit_div_two_pow,
    decide_eq_true (Nat.mod_lt _ (by decide)), Bool.true_and]
  congr 1
  omega

/-- The bits of memory after a word has been stored. -/
theorem bit_writeWord (hw : w.bytes ≤ 8) (hn : n < 8) : (m.writeWord a w u).bit x n =
    if (x - a).toNat < w.bytes then u.toNat.testBit (8 * (x - a).toNat + n) else m.bit x n := by
  have hbytes : w.wordBytes = w.bytes := Nat.min_eq_left hw
  rw [bit, peek_writeWord, hbytes]
  split_ifs with hx
  · obtain ⟨b, hb, hval⟩ := LittleEndian.getElem?_ofWord hx u
    rw [hb, Option.getD_some, hval, Nat.testBit_mod_two_pow, Nat.testBit_div_two_pow,
      decide_eq_true hn, Bool.true_and, Nat.add_comm]
  · rw [List.getElem?_eq_none (by rw [LittleEndian.length_ofWord]; omega)]
    rfl

/-- A word that is stored where it was read, with one bit changed, changes that bit alone. -/
theorem bit_writeWord_of_flipped (hw : w.bytes ≤ 8) (h : m.readWord a w = .ok v) (hi : i < w.bits)
    {b : Bool} (hu : ∀ j < w.bits, u.toNat.testBit j = if j = i then b else v.toNat.testBit j)
    (hn : n < 8) : (m.writeWord a w u).bit x n =
      if x = a + UInt64.ofNat (i / 8) ∧ n = i % 8 then b else m.bit x n := by
  have hbits : w.bits = 8 * w.bytes := rfl
  have hoffset : (a + UInt64.ofNat (i / 8) - a).toNat = i / 8 := toNat_offset (by omega) a
  rw [bit_writeWord hw hn]
  by_cases hx : (x - a).toNat < w.bytes
  · have hplace : a + UInt64.ofNat ((8 * (x - a).toNat + n) / 8) = x := by
      rw [show (8 * (x - a).toNat + n) / 8 = (x - a).toNat by omega, add_offset]
    have hiff : 8 * (x - a).toNat + n = i ↔ x = a + UInt64.ofNat (i / 8) ∧ n = i % 8 := by
      constructor
      · rintro rfl
        exact ⟨hplace.symm, by omega⟩
      · rintro ⟨rfl, rfl⟩
        omega
    rw [if_pos hx, hu _ (by omega), testBit_of_readWord hw h (by omega), hplace,
      show (8 * (x - a).toNat + n) % 8 = n by omega]
    exact if_congr hiff rfl rfl
  · rw [if_neg hx, if_neg]
    rintro ⟨rfl, -⟩
    omega

end Memory

end LongMode
