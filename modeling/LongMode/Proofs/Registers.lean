import LongMode.Machine
import Mathlib.Tactic
/-!
Registers as views of the register file: a full general register reads back what was written to it,
and a write shows in no register of another slot.
-/

namespace LongMode

theorem Width.toNat_and_mask (v : UInt64) (w : Width) :
    (v &&& w.mask).toNat = v.toNat % w.modulus := by
  have h (n : Nat) : v.toNat &&& (2 ^ n - 1) = v.toNat % 2 ^ n := Nat.and_two_pow_sub_one_eq_mod _ n
  cases w <;> rw [UInt64.toNat_and]
  case byte => exact h 8
  case word => exact h 16
  case dword => exact h 32
  case qword | xmm | ymm => exact h 64

theorem Width.mask_lt (w : Width) (v : UInt64) : (v &&& w.mask).toNat < w.modulus := by
  rw [toNat_and_mask]
  exact Nat.mod_lt _ (Nat.pow_pos (by decide))

/-- The bits of a mask laid over a word and looked at through it. -/
theorem and_overlay (x v mask : UInt64) : (x &&& ~~~mask ||| v &&& mask) &&& mask = v &&& mask := by
  apply UInt64.toBitVec_inj.1
  ext i
  simp only [UInt64.toBitVec_and, UInt64.toBitVec_or, UInt64.toBitVec_not, BitVec.getElem_and,
    BitVec.getElem_or, BitVec.getElem_not]
  cases mask.toBitVec[i] <;> simp

/-- The bits of a mask taken from a word are laid over it without a change. -/
theorem overlay_self (x mask : UInt64) : x &&& ~~~mask ||| x &&& mask = x := by
  apply UInt64.toBitVec_inj.1
  ext i
  simp only [UInt64.toBitVec_and, UInt64.toBitVec_or, UInt64.toBitVec_not, BitVec.getElem_and,
    BitVec.getElem_or, BitVec.getElem_not]
  cases mask.toBitVec[i] <;> simp

namespace Register

@[simp] theorem isHighByte_general (code : Fin 16) (w : Width) :
    (general code w).isHighByte = false := by
  simp [isHighByte, general]

theorem fetch_general (code : Fin 16) (w : Width) (f : RegisterFile) :
    (general code w).fetch f = f.readGeneral code w := by
  unfold fetch
  rw [isHighByte_general]
  rfl

theorem fetch_set_general (code : Fin 16) (w : Width) (f : RegisterFile) (v : UInt64) :
    (general code w).fetch ((general code w).set f v) = v &&& w.mask := by
  have hset : (general code w).set f v = f.writeGeneral code w v := by
    unfold set
    rw [isHighByte_general]
    rfl
  rw [fetch_general, hset]
  unfold RegisterFile.readGeneral RegisterFile.writeGeneral
  cases w <;> simp [Width.mask, and_overlay, UInt64.and_assoc]

/-- What is written over the second byte of a word is read back from there. -/
theorem second_byte_overlay (x v : UInt64) :
    ((x &&& ~~~(0xFF00 : UInt64) ||| (v &&& 0xFF) <<< 8) >>> 8) &&& 0xFF = v &&& 0xFF := by
  have hplace : (v &&& 0xFF) <<< 8 = v <<< 8 &&& 0xFF00 := UInt64.shiftLeft_and
  have hlow : (v &&& 0xFF).toNat < 2 ^ 8 := Width.mask_lt .byte v
  calc ((x &&& ~~~(0xFF00 : UInt64) ||| (v &&& 0xFF) <<< 8) >>> 8) &&& (0xFF : UInt64)
      = ((x &&& ~~~(0xFF00 : UInt64) ||| v <<< 8 &&& 0xFF00) &&& 0xFF00) >>> 8 := by
        rw [hplace, UInt64.shiftRight_and]
        rfl
    _ = ((v &&& 0xFF) <<< 8) >>> 8 := by rw [and_overlay, hplace]
    _ = v &&& 0xFF := by
        apply UInt64.toNat_inj.1
        rw [UInt64.toNat_shiftRight, UInt64.toNat_shiftLeft, Nat.shiftLeft_eq, Nat.shiftRight_eq_div_pow]
        change _ * 2 ^ 8 % 2 ^ 64 / 2 ^ 8 = _
        omega

theorem second_byte_self (x : UInt64) : ((x >>> 8) &&& 0xFF) <<< 8 = x &&& 0xFF00 := by
  have hbits : ∀ i (h : i < 64), (0xFF00#64)[i] = (decide (8 ≤ i) && (0xFF#64)[i - 8]) := by decide
  apply UInt64.toBitVec_inj.1
  ext i hi
  simp only [UInt64.toBitVec_and, UInt64.toBitVec_shiftLeft, UInt64.toBitVec_shiftRight,
    BitVec.getElem_and]
  change _ = (x.toBitVec[i] && (0xFF00#64)[i])
  rw [hbits i hi]
  by_cases h : i < 8
  · simp [h]
  · have hplace : 8 + (i - 8) = i := by omega
    simp [h, hplace, BitVec.getLsbD_eq_getElem hi, show 8 ≤ i by omega]

/-- A general register reads back what was written to it. -/
theorem fetch_set {r : Register} (h : r.bank = .general) (f : RegisterFile) (v : UInt64) :
    r.fetch (r.set f v) = v &&& r.width.mask := by
  unfold fetch Register.set
  simp only [h]
  split_ifs with hhigh
  · have hw : r.width = .byte := by
      simp only [isHighByte, Bool.and_eq_true, beq_iff_eq] at hhigh
      exact hhigh.1.1.1.2
    rw [hw]
    simpa [RegisterFile.readHigh, RegisterFile.writeHigh, Width.mask] using second_byte_overlay _ v
  · have hg := fetch_set_general r.code r.width f v
    rwa [fetch_general, set, isHighByte_general] at hg

/-- A general register is as it was after its own value is written to it, unless the write clears
the upper half. -/
theorem set_fetch {r : Register} (h : r.bank = .general) (hw : r.width ≠ .dword) (f : RegisterFile) :
    r.set f (r.fetch f) = f := by
  unfold fetch Register.set
  simp only [h]
  split_ifs with hhigh
  · simp [RegisterFile.readHigh, RegisterFile.writeHigh, UInt64.and_assoc, second_byte_self,
      overlay_self]
  · unfold RegisterFile.readGeneral RegisterFile.writeGeneral
    cases hwidth : r.width with
    | dword => exact absurd hwidth hw
    | byte | word => simp [UInt64.and_assoc, overlay_self]
    | qword | xmm | ymm =>
      have hall (v : UInt64) : v &&& 0xFFFF_FFFF_FFFF_FFFF = v := UInt64.and_neg_one
      simp [Width.mask, hall]

theorem fetch_set_qword (code : Fin 16) (f : RegisterFile) (v : UInt64) :
    (general code .qword).fetch ((general code .qword).set f v) = v := by
  have h : v &&& 0xFFFF_FFFF_FFFF_FFFF = v := UInt64.and_neg_one
  simp [fetch, set, general, isHighByte, RegisterFile.readGeneral, RegisterFile.writeGeneral,
    Width.mask, h]

theorem set_fetch_qword (code : Fin 16) (f : RegisterFile) :
    (general code .qword).set f ((general code .qword).fetch f) = f := by
  have h : ∀ v : UInt64, v &&& 0xFFFF_FFFF_FFFF_FFFF = v := fun v => UInt64.and_neg_one
  simp [fetch, set, general, isHighByte, RegisterFile.readGeneral, RegisterFile.writeGeneral,
    Width.mask, h]

theorem fetch_lt (r : Register) (f : RegisterFile) :
    (r.fetch f).toNat < r.width.modulus := by
  unfold fetch
  cases r.bank with
  | general =>
    dsimp only
    split_ifs with h
    · have hw : r.width = .byte := by
        simp only [isHighByte, Bool.and_eq_true, beq_iff_eq] at h
        exact h.1.1.1.2
      rw [hw]
      exact Width.mask_lt .byte _
    · exact Width.mask_lt _ _
  | mmx => exact Width.mask_lt _ _
  | sse => exact Width.mask_lt _ _

/-- Where the register is stored: its bank, and its place there. -/
def slot (r : Register) : Bank × Nat :=
  match r.bank with
  | .general => (.general, if r.isHighByte then r.owner else r.code)
  | .mmx => (.mmx, r.code % 8)
  | .sse => (.sse, r.code)

theorem fetch_set_of_slot_ne {q r : Register} (h : q.slot ≠ r.slot) (f : RegisterFile)
    (v : UInt64) : q.fetch (r.set f v) = q.fetch f := by
  unfold slot at h
  unfold fetch set
  cases hq : q.bank <;> cases hr : r.bank <;> simp only [hq, hr] at h
  -- a write of one bank leaves the storage of another bank alone
  case general.sse | mmx.sse | sse.general | sse.mmx => first | rfl | (split_ifs <;> rfl)
  case general.general =>
    simp only [ne_eq, Prod.mk.injEq, true_and] at h
    split_ifs at h ⊢ <;>
      simp [RegisterFile.readHigh, RegisterFile.writeHigh, RegisterFile.readGeneral,
        RegisterFile.writeGeneral, RegisterFile.generalSlot, Ne.symm h]
  case general.mmx =>
    have hlt : ∀ c : Fin 16, 16 + r.code.val % 8 ≠ c.val := fun c => by omega
    split_ifs <;>
      simp [RegisterFile.readHigh, RegisterFile.readGeneral, RegisterFile.writeMmx,
        RegisterFile.generalSlot, RegisterFile.mmxSlot, hlt]
  case mmx.general =>
    have hlt : ∀ c : Fin 16, c.val ≠ 16 + q.code.val % 8 := fun c => by omega
    split_ifs <;>
      simp [RegisterFile.readMmx, RegisterFile.writeHigh, RegisterFile.writeGeneral,
        RegisterFile.generalSlot, RegisterFile.mmxSlot, hlt]
  case mmx.mmx =>
    simp_all [RegisterFile.readMmx, RegisterFile.writeMmx, RegisterFile.mmxSlot, eq_comm]
  case sse.sse =>
    simp_all [RegisterFile.readVector, RegisterFile.overlayVector, eq_comm]

end Register

namespace Machine

theorem get_general_lt (m : Machine) (code : Fin 16) (w : Width) :
    (m.get (.general code w)).toNat < w.modulus := by
  unfold get
  rw [Register.fetch_general]
  exact Width.mask_lt w _

/-- A number that fits into a general register reads back. -/
theorem get_set_general (m : Machine) {code : Fin 16} {w : Width} {n : Nat} (hn : n < w.modulus) :
    ((m.set (.general code w) (UInt64.ofNat n)).get (.general code w)).toNat = n := by
  have hle : w.modulus ≤ 2 ^ 64 := by cases w <;> decide
  change ((Register.general code w).fetch ((Register.general code w).set _ _)).toNat = n
  rw [Register.fetch_set_general, Width.toNat_and_mask, UInt64.toNat_ofNat_of_lt' (lt_of_lt_of_le hn hle)]
  exact Nat.mod_eq_of_lt hn

theorem get_set_stackPointer (m : Machine) (v : UInt64) :
    (m.set .stackPointer v).get .stackPointer = v := Register.fetch_set_qword 4 m.registers v

theorem set_get_stackPointer (m : Machine) : m.set .stackPointer (m.get .stackPointer) = m := by
  unfold set get Register.stackPointer
  rw [Register.set_fetch_qword]

end Machine

end LongMode
