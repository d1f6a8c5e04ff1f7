import LongMode.Text.Utf8
import Mathlib.Tactic
/-!
A text written as UTF-8 is read back as it was. A first byte announces how many bytes follow it and
where the second one lies, and the bits of all of them make the character again.
-/

namespace LongMode.Utf8

variable {offset got owed acc low high bits : Nat} {b : UInt8} {rest : List UInt8}

theorem decodeFrom_single (h : lead? b.toNat = some (0, bits, low, high)) :
    decodeFrom offset 0 0 0 0 0 (b :: rest) =
      (decodeFrom (offset + 1) 0 0 0 0 0 rest).map (Char.ofNat bits :: ·) := by
  rw [decodeFrom]
  simp only [h, if_true]

theorem decodeFrom_first (h : lead? b.toNat = some (owed + 1, bits, low, high)) :
    decodeFrom offset 0 0 0 0 0 (b :: rest) = decodeFrom offset 1 (owed + 1) bits low high rest := by
  rw [decodeFrom]
  simp only [h, if_true]

theorem decodeFrom_further (hlow : low ≤ b.toNat) (hhigh : b.toNat ≤ high) :
    decodeFrom offset got (owed + 2) acc low high (b :: rest) =
      decodeFrom offset (got + 1) (owed + 1) (acc * 64 + (b.toNat - 0x80)) 0x80 0xBF rest := by
  rw [decodeFrom]
  simp [hlow, hhigh]

theorem decodeFrom_last (hlow : low ≤ b.toNat) (hhigh : b.toNat ≤ high) :
    decodeFrom offset got 1 acc low high (b :: rest) =
      (decodeFrom (offset + got + 1) 0 0 0 0 0 rest).map
        (Char.ofNat (acc * 64 + (b.toNat - 0x80)) :: ·) := by
  rw [decodeFrom]
  simp [hlow, hhigh]

/-- What a first byte below this bound announces for the character that the bits start. -/
theorem lead?_two {n : Nat} (hlow : 0x80 ≤ n) (hhigh : n < 0x800) :
    lead? (0xC0 + n / 64) = some (1, n / 64, 0x80, 0xBF) := by
  unfold lead?
  rw [if_neg (by omega), if_pos (by omega), Nat.add_sub_cancel_left]

theorem lead?_three {n : Nat} (hlow : 0x800 ≤ n) (hhigh : n < 0x10000)
    (hvalid : n < 0xD800 ∨ 0xDFFF < n) :
    ∃ low high, lead? (0xE0 + n / 4096) = some (2, n / 4096, low, high) ∧
      low ≤ 0x80 + n / 64 % 64 ∧ 0x80 + n / 64 % 64 ≤ high := by
  unfold lead?
  rw [if_neg (by omega), if_neg (by omega)]
  by_cases h0 : n / 4096 = 0
  · refine ⟨0xA0, 0xBF, ?_, by omega, by omega⟩
    rw [h0, if_pos rfl]
  · rw [if_neg (by omega)]
    by_cases hd : n / 4096 = 0xD
    · refine ⟨0x80, 0x9F, ?_, by omega, by omega⟩
      rw [hd, if_pos rfl]
    · refine ⟨0x80, 0xBF, ?_, by omega, by omega⟩
      rw [if_neg (by omega), if_pos (by omega), Nat.add_sub_cancel_left]

theorem lead?_four {n : Nat} (hlow : 0x10000 ≤ n) (hhigh : n < 0x110000) :
    ∃ low high, lead? (0xF0 + n / 262144) = some (3, n / 262144, low, high) ∧
      low ≤ 0x80 + n / 4096 % 64 ∧ 0x80 + n / 4096 % 64 ≤ high := by
  unfold lead?
  rw [if_neg (by omega), if_neg (by omega), if_neg (by omega), if_neg (by omega),
    if_neg (by omega)]
  by_cases h0 : n / 262144 = 0
  · refine ⟨0x90, 0xBF, ?_, by omega, by omega⟩
    rw [h0, if_pos rfl]
  · rw [if_neg (by omega)]
    by_cases h4 : n / 262144 = 4
    · refine ⟨0x80, 0x8F, ?_, by omega, by omega⟩
      rw [h4, if_pos rfl]
    · refine ⟨0x80, 0xBF, ?_, by omega, by omega⟩
      rw [if_neg (by omega), if_pos (by omega), Nat.add_sub_cancel_left]

theorem toNat_byte {n : Nat} (h : n < 256) : (UInt8.ofNat n).toNat = n :=
  UInt8.toNat_ofNat_of_lt' h

/-- A character in front is read, wherever the reading is. -/
theorem decodeFrom_char (offset : Nat) (c : Char) (rest : List UInt8) :
    ∃ next, decodeFrom offset 0 0 0 0 0 (encodeChar c ++ rest) =
      (decodeFrom next 0 0 0 0 0 rest).map (c :: ·) := by
  have hvalid : c.toNat < 0xD800 ∨ 0xDFFF < c.toNat ∧ c.toNat < 0x110000 := c.valid
  have hc : Char.ofNat c.toNat = c := Char.ofNat_toNat c
  unfold encodeChar
  generalize c.toNat = n at hvalid hc
  dsimp only
  split_ifs with h1 h2 h3
  · have hlead : lead? (UInt8.ofNat n).toNat = some (0, n, 0x80, 0xBF) := by
      rw [toNat_byte (by omega), lead?, if_pos h1]
    refine ⟨offset + 1, ?_⟩
    rw [List.singleton_append, decodeFrom_single hlead, hc]
  · have hlead : lead? (UInt8.ofNat (0xC0 + n / 64)).toNat = some (0 + 1, n / 64, 0x80, 0xBF) := by
      rw [toNat_byte (by omega)]
      exact lead?_two (by omega) h2
    have hlast := toNat_byte (show 0x80 + n % 64 < 256 by omega)
    have hbits : n / 64 * 64 + (0x80 + n % 64 - 0x80) = n := by omega
    refine ⟨offset + 1 + 1, ?_⟩
    simp only [List.cons_append, List.nil_append]
    rw [decodeFrom_first hlead, decodeFrom_last (by omega) (by omega), hlast, hbits, hc]
  · rcases lead?_three (by omega) h3 (by omega) with ⟨low, high, hlead, hlow, hhigh⟩
    rw [← toNat_byte (show 0xE0 + n / 4096 < 256 by omega)] at hlead
    have hsecond := toNat_byte (show 0x80 + n / 64 % 64 < 256 by omega)
    have hlast := toNat_byte (show 0x80 + n % 64 < 256 by omega)
    have hbits : (n / 4096 * 64 + (0x80 + n / 64 % 64 - 0x80)) * 64 + (0x80 + n % 64 - 0x80) = n := by
      omega
    refine ⟨offset + (1 + 1) + 1, ?_⟩
    simp only [List.cons_append, List.nil_append]
    rw [decodeFrom_first hlead, decodeFrom_further (by omega) (by omega),
      decodeFrom_last (by omega) (by omega), hsecond, hlast, hbits, hc]
  · rcases lead?_four (show 0x10000 ≤ n by omega) (by omega) with ⟨low, high, hlead, hlow, hhigh⟩
    rw [← toNat_byte (show 0xF0 + n / 262144 < 256 by omega)] at hlead
    have hsecond := toNat_byte (show 0x80 + n / 4096 % 64 < 256 by omega)
    have hthird := toNat_byte (show 0x80 + n / 64 % 64 < 256 by omega)
    have hlast := toNat_byte (show 0x80 + n % 64 < 256 by omega)
    have hbits : ((n / 262144 * 64 + (0x80 + n / 4096 % 64 - 0x80)) * 64 +
        (0x80 + n / 64 % 64 - 0x80)) * 64 + (0x80 + n % 64 - 0x80) = n := by omega
    refine ⟨offset + (1 + 1 + 1) + 1, ?_⟩
    simp only [List.cons_append, List.nil_append]
    rw [decodeFrom_first hlead, decodeFrom_further (by omega) (by omega),
      decodeFrom_further (by omega) (by omega), decodeFrom_last (by omega) (by omega), hsecond,
      hthird, hlast, hbits, hc]

theorem decodeFrom_encode (offset : Nat) (text : List Char) :
    decodeFrom offset 0 0 0 0 0 (encode text) = .ok text := by
  induction text generalizing offset with
  | nil => rfl
  | cons c text ih =>
    rcases decodeFrom_char offset c (encode text) with ⟨next, hnext⟩
    have hencode : encode (c :: text) = encodeChar c ++ encode text := List.flatMap_cons
    rw [hencode, hnext, ih]
    rfl

theorem decode_encode (text : List Char) : decode (encode text) = .ok text :=
  decodeFrom_encode 0 text

theorem encode_injective {s t : List Char} (h : encode s = encode t) : s = t := by
  have hs := decode_encode s
  rw [h, decode_encode t] at hs
  exact (Except.ok.inj hs).symm

end LongMode.Utf8
