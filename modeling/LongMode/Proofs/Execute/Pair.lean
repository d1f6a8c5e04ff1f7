import LongMode.Execute.Instruction
import LongMode.Proofs.Arithmetic.Wide
/-!
The accumulator pair: the low half of a double-width number is in the accumulator, the high half in
the data register or, for bytes, in the second byte of the accumulator. A product fills the pair, and
a division takes its dividend from it and puts the quotient and the remainder there.
-/

namespace LongMode

open Arithmetic

namespace Register

def upper (w : Width) : Register := if w = .byte then highAccumulator else data w

@[simp] theorem slot_general (code : Fin 16) (w : Width) :
    (general code w).slot = (.general, code.val) := by simp [slot, general, isHighByte]

/-- The register is stored where a register of the pair is. -/
def InPair (w : Width) (r : Register) : Prop :=
  r.slot = (accumulator w).slot ∨ r.slot = (upper w).slot

instance (w : Width) (r : Register) : Decidable (r.InPair w) := inferInstanceAs (Decidable (_ ∨ _))

end Register

namespace Machine

/-- The bits of the pair, which are those of one register for bytes. -/
def pair (w : Width) (m : Machine) : Nat :=
  if w = .byte then (m.get (.accumulator .word)).toNat
  else (m.get (.data w)).toNat * 2 ^ w.bits + (m.get (.accumulator w)).toNat

def wide (signed : Bool) (w : Width) (m : Machine) : Int := number signed (2 * w.bits) (m.pair w)

def number (signed : Bool) (r : Register) (m : Machine) : Int :=
  Arithmetic.number signed r.width.bits (m.get r).toNat

/-- The halves of the pair as a division takes them. -/
def halves (w : Width) (m : Machine) : UInt64 × UInt64 :=
  if w = .byte then
    let ax := m.get (.accumulator .word)
    (ax >>> 8, ax &&& 0xFF)
  else (m.get (.data w), m.get (.accumulator w))

variable {w : Width} {low high : UInt64}

/-- The low byte of a word and the byte above it. -/
theorem toNat_halves_byte (v : UInt64) :
    (v >>> 8).toNat * 2 ^ 8 + (v &&& 0xFF).toNat = v.toNat := by
  have hand : (v &&& 0xFF).toNat = v.toNat % 2 ^ 8 := Width.toNat_and_mask v .byte
  rw [hand, UInt64.toNat_shiftRight, Nat.shiftRight_eq_div_pow]
  exact Nat.div_add_mod' v.toNat (2 ^ 8)

theorem dividend_halves (signed : Bool) (w : Width) (m : Machine) :
    dividend signed (m.halves w).1 (m.halves w).2 w = m.wide signed w := by
  unfold dividend wide halves pair
  split_ifs with hbyte
  · rw [hbyte]
    exact congrArg _ (toNat_halves_byte _)
  · rfl

/-- Both halves of the pair are registers. -/
theorem pair_eq (w : Width) (m : Machine) :
    m.pair w = (m.get (.upper w)).toNat * 2 ^ w.bits + (m.get (.accumulator w)).toNat := by
  unfold pair Register.upper
  split_ifs with hbyte
  · subst hbyte
    have hmask (v : UInt64) : (v &&& Width.byte.mask).toNat = v.toNat % 2 ^ 8 := Width.toNat_and_mask v .byte
    have hword : (m.get (.accumulator .word)).toNat = m.registers.slots[0].toNat % 2 ^ 16 :=
      Width.toNat_and_mask _ .word
    have hlow : (m.get (.accumulator .byte)).toNat = m.registers.slots[0].toNat % 2 ^ 8 := hmask _
    have hhigh : (m.get .highAccumulator).toNat = m.registers.slots[0].toNat / 2 ^ 8 % 2 ^ 8 := by
      refine (hmask _).trans ?_
      rw [UInt64.toNat_shiftRight, Nat.shiftRight_eq_div_pow]
      rfl
    rw [hword, hlow, hhigh]
    change _ = _ * 2 ^ 8 + _
    omega
  · rfl

theorem get_lt (hw : w.bytes ≤ 8) {r : Register} (hr : r.width = w) (m : Machine) :
    (m.get r).toNat < 2 ^ w.bits := by
  rw [← Width.modulus_eq hw, ← hr]
  exact r.fetch_lt m.registers

theorem upper_width (w : Width) : (Register.upper w).width = w := by
  unfold Register.upper
  split_ifs with hbyte
  · exact hbyte.symm
  · rfl

theorem toNat_get_set (hw : w.bytes ≤ 8) (code : Fin 16) {v : UInt64} (hv : v.toNat < 2 ^ w.bits)
    (m : Machine) : ((m.set (.general code w) v).get (.general code w)).toNat = v.toNat := by
  change ((Register.general code w).fetch ((Register.general code w).set _ _)).toNat = _
  rw [Register.fetch_set_general, Width.toNat_and_mask, Width.modulus_eq hw, Nat.mod_eq_of_lt hv]

theorem pair_setPair (hw : w.bytes ≤ 8) (m : Machine) (hlow : low.toNat < 2 ^ w.bits)
    (hhigh : high.toNat < 2 ^ w.bits) :
    (Execute.setPair w low high m).pair w = high.toNat * 2 ^ w.bits + low.toNat := by
  unfold pair Execute.setPair
  split_ifs with hbyte
  · subst hbyte
    change low.toNat < 2 ^ 8 at hlow
    change high.toNat < 2 ^ 8 at hhigh
    have hor : (high <<< 8 ||| low).toNat = high.toNat * 2 ^ 8 + low.toNat := by
      rw [UInt64.toNat_or, UInt64.toNat_shiftLeft, show (8 : UInt64).toNat % 64 = 8 from rfl,
        Nat.mod_eq_of_lt (by rw [Nat.shiftLeft_eq]; omega), ← Nat.shiftLeft_add_eq_or_of_lt hlow,
        Nat.shiftLeft_eq]
    rw [Register.accumulator, toNat_get_set (by decide) 0, hor]
    · rfl
    · rw [hor]
      change _ < 2 ^ 16
      omega
  · have hslots : (Register.accumulator w).slot ≠ (Register.data w).slot := by
      simp [Register.accumulator, Register.data]
    have hother : ((m.set (.accumulator w) low).set (.data w) high).get (.accumulator w) =
        (m.set (.accumulator w) low).get (.accumulator w) :=
      Register.fetch_set_of_slot_ne hslots (m.set (.accumulator w) low).registers high
    rw [hother]
    exact congrArg₂ _ (congrArg (· * _) (toNat_get_set hw 2 hhigh _)) (toNat_get_set hw 0 hlow m)

theorem eq_of_digits {base a b c d : Nat} (hb : b < base) (hd : d < base)
    (h : a * base + b = c * base + d) : b = d ∧ a = c := by
  have hbd : b = d := calc
    b = (a * base + b) % base := by rw [Nat.mul_add_mod', Nat.mod_eq_of_lt hb]
    _ = d := by rw [h, Nat.mul_add_mod', Nat.mod_eq_of_lt hd]
  rw [hbd, Nat.add_right_cancel_iff] at h
  exact ⟨hbd, Nat.eq_of_mul_eq_mul_right (Nat.zero_lt_of_lt hb) h⟩

/-- What is put into the pair is read back from its two registers. -/
theorem get_setPair (hw : w.bytes ≤ 8) (m : Machine) (hlow : low.toNat < 2 ^ w.bits)
    (hhigh : high.toNat < 2 ^ w.bits) :
    ((Execute.setPair w low high m).get (.accumulator w)).toNat = low.toNat ∧
      ((Execute.setPair w low high m).get (.upper w)).toNat = high.toNat := by
  refine eq_of_digits (get_lt hw rfl _) hlow ?_
  rw [← pair_eq, pair_setPair hw m hlow hhigh]

theorem get_setPair_of_not_inPair (m : Machine) {r : Register} (h : ¬r.InPair w) :
    (Execute.setPair w low high m).get r = m.get r := by
  unfold Register.InPair Register.upper at h
  obtain ⟨hlow, hhigh⟩ := not_or.1 h
  unfold Execute.setPair
  split_ifs at hhigh ⊢ with hbyte
  · exact Register.fetch_set_of_slot_ne (by simpa [Register.accumulator] using hlow) _ _
  · exact (Register.fetch_set_of_slot_ne hhigh (m.set (.accumulator w) low).registers high).trans
      (Register.fetch_set_of_slot_ne hlow m.registers low)

/-- Nothing but registers changes. -/
theorem setPair_eq (w : Width) (low high : UInt64) (m : Machine) :
    Execute.setPair w low high m =
      { m with registers := (Execute.setPair w low high m).registers } := by
  unfold Execute.setPair
  split_ifs <;> rfl

end Machine

namespace Execute

variable {m : Machine} {source : Operand} {v : UInt64}

theorem read_of_ok (h : source.read m = .ok v) : read source m = .ok v := by
  unfold read
  rw [h]
  rfl

theorem multiply_of_read (signed : Bool) (h : read source m = .ok v) :
    multiply signed source m =
      let p := mul signed (m.get (.accumulator source.width)) v source.width
      .ok ((setPair source.width p.low p.high m).define (overflowFlags p.overflow)) := by
  unfold multiply
  rw [h]
  rfl

theorem divide_of_read (frame : Frame) (signed : Bool) (h : read source m = .ok v) :
    divide frame signed source m =
      match div signed (m.halves source.width).1 (m.halves source.width).2 v source.width with
      | none => .error (.fault (.divideError frame.start))
      | some (quotient, remainder) => .ok (setPair source.width quotient remainder m) := by
  unfold divide
  rw [h]
  rfl

theorem divide_of_none (frame : Frame) {signed : Bool} (h : read source m = .ok v)
    (hdiv : div signed (m.halves source.width).1 (m.halves source.width).2 v source.width = none) :
    divide frame signed source m = .error (.fault (.divideError frame.start)) := by
  rw [divide_of_read frame signed h, hdiv]

theorem divide_of_some (frame : Frame) {signed : Bool} {quotient remainder : UInt64}
    (h : read source m = .ok v)
    (hdiv : div signed (m.halves source.width).1 (m.halves source.width).2 v source.width =
      some (quotient, remainder)) :
    divide frame signed source m = .ok (setPair source.width quotient remainder m) := by
  rw [divide_of_read frame signed h, hdiv]

end Execute

end LongMode
