import LongMode.Encoding.ModRm
import LongMode.Proofs.Arithmetic.Wide
import LongMode.Proofs.Encoding.WellFormed
import LongMode.Proofs.Memory
/-!
The table of addressing forms. The bytes from a ModRM byte on say how many of them there are, which
registers they name, and which address; the decoder takes exactly these bytes, and its operands are
the ones that the bytes stand for. An address is a sum of numbers, cut off to 64 or 32 bits once.
-/

namespace LongMode

namespace Machine

def word (m : Machine) (code : Nat) : Nat := (m.registers.slots[code]?.getD 0).toNat

/-- The number that a register operand stands for. Without a REX byte, four bytes are the second
bytes of other registers. -/
def part (m : Machine) (rex : Bool) (w : Width) (code : Nat) : Nat :=
  if w = .byte ∧ rex = false ∧ 4 ≤ code ∧ code < 8 then m.word (code - 4) / 2 ^ 8 % 2 ^ 8
  else m.word code % w.modulus

end Machine

namespace Addressing

/-! The fields of the ModRM byte and of the SIB byte. -/

section

variable (code : Nat → UInt8)

def mode : Nat := (code 0).toNat / 64
def regField : Nat := (code 0).toNat / 8 % 8
def rmField : Nat := (code 0).toNat % 8
def scaleField : Nat := (code 1).toNat / 64
def indexField : Nat := (code 1).toNat / 8 % 8
def baseField : Nat := (code 1).toNat % 8

def HasSib : Prop := mode code ≠ 3 ∧ rmField code = 4

instance : Decidable (HasSib code) := inferInstanceAs (Decidable (_ ∧ _))

def displacementStart : Nat := if HasSib code then 2 else 1

def displacementSize : Nat :=
  match mode code with
  | 0 => if rmField code = 5 ∨ rmField code = 4 ∧ baseField code = 5 then 4 else 0
  | 1 => 1
  | 2 => 4
  | _ => 0

def size : Nat := displacementStart code + displacementSize code

/-- The bytes of the displacement, lowest first, as a two's complement number. -/
def displacement : Int :=
  Arithmetic.number true (8 * displacementSize code) (Nat.ofDigits 256
    ((List.range (displacementSize code)).map fun i => (code (displacementStart code + i)).toNat))

end

variable (code : Nat → UInt8) (mods : Modifiers)

/-- The register of the base, or what stands in its place: the instruction pointer, or nothing. -/
def base (m : Machine) : Nat :=
  if rmField code = 4 then
    if mode code = 0 ∧ baseField code = 5 then 0
    else m.word (baseField code + 8 * mods.bits.base.toNat)
  else if mode code = 0 ∧ rmField code = 5 then m.ip.toNat
  else m.word (rmField code + 8 * mods.bits.base.toNat)

def index (m : Machine) : Nat :=
  if rmField code = 4 ∧ ¬(indexField code = 4 ∧ mods.bits.index = false) then
    m.word (indexField code + 8 * mods.bits.index.toNat) * 2 ^ scaleField code
  else 0

def addressBits : Nat := if mods.addressSize then 32 else 64

def address (m : Machine) : Int :=
  (base code mods m + index code mods m + displacement code) % 2 ^ addressBits mods

def IsRegister (w : Width) (number : Nat) (o : Operand) : Prop :=
  ∃ r : Register, o = .register r ∧ r.bank = .general ∧ r.code.val = number ∧ r.width = w ∧
    ∀ m : Machine, (m.get r).toNat = m.part mods.rex.isSome w number

/-- The operand is a place in memory, whose address is the one in the table. -/
def IsMemory (w : Width) (o : Operand) : Prop :=
  ∃ p : Pointer, o = .memory p ∧ p.width = w ∧ p.addressWidth = mods.addressWidth ∧
    ∀ m : Machine, ((p.resolve m).toNat : Int) = address code mods m

/-- The operands are the ones that the bytes stand for. -/
structure Implements (w v : Width) (form : Form) (d : ModRm) : Prop where
  mode : d.mode = mode code
  reg : d.reg.val = regField code + 8 * mods.bits.reg.toNat
  rm : d.rm.val = rmField code + 8 * mods.bits.base.toNat
  source : if form.extended then d.source = none
    else ∃ o, d.source = some o ∧ IsRegister mods v d.reg.val o
  destination : if Addressing.mode code = 3 then IsRegister mods w d.rm.val d.destination
    else IsMemory code mods w d.destination

end Addressing

/-! What the decoders give. -/

namespace LittleEndian

theorem toNat_toWord (bytes : List UInt8) (h : bytes.length ≤ 8) :
    (toWord bytes).toNat = Nat.ofDigits 256 (bytes.map UInt8.toNat) := by
  induction bytes with
  | nil => rfl
  | cons b rest ih =>
    rw [List.length_cons] at h
    have hrest := toWord_lt rest (by omega)
    have hpow : 2 ^ (8 * rest.length) ≤ 2 ^ 56 := Nat.pow_le_pow_right (by decide) (by omega)
    rw [toWord, toNat_or_shift b (hrest.trans_le hpow), ih (by omega), List.map_cons,
      Nat.ofDigits_cons]

end LittleEndian

namespace Decoder

/-- The first `n` bytes of `code` stand from `a` on. -/
def Stand (f : Fetch) (a : UInt64) (code : Nat → UInt8) (n : Nat) : Prop :=
  ∀ i < n, f (a + UInt64.ofNat i) = .ok (code i)

variable {f : Fetch} {a : UInt64} {code : Nat → UInt8} {n : Nat}

theorem Stand.skip (h : Stand f a code n) {k : Nat} (hk : k ≤ n) :
    Stand f (a + UInt64.ofNat k) (fun i => code (k + i)) (n - k) := by
  intro i hi
  rw [UInt64.add_assoc, ← UInt64.ofNat_add]
  exact h (k + i) (by omega)

theorem Stand.fetch (h : Stand f a code n) (hn : 0 < n) :
    Decoder.fetch f a = .ok (code 0, a + UInt64.ofNat 1) := by
  refine fetch_of_ok ?_
  simpa using h 0 hn

theorem Stand.fetchBytes (h : Stand f a code n) :
    Decoder.fetchBytes n f a = .ok ((List.range n).map code, a + UInt64.ofNat n) := by
  induction n generalizing a code with
  | zero =>
    rw [show a + UInt64.ofNat 0 = a from UInt64.add_zero a]
    rfl
  | succ n ih =>
    have hrest := ih (h.skip (k := 1) (by omega))
    have hone : a + UInt64.ofNat 1 + UInt64.ofNat n = a + UInt64.ofNat (n + 1) := by
      rw [UInt64.add_assoc, ← UInt64.ofNat_add, Nat.add_comm]
    rw [hone] at hrest
    rw [Decoder.fetchBytes, bind_apply, h.fetch (by omega)]
    dsimp only
    rw [bind_apply, hrest, List.range_succ_eq_map, List.map_cons, List.map_map]
    simp only [Nat.add_comm 1]
    rfl

theorem Stand.fetchWord (h : Stand f a code n) :
    Decoder.fetchWord n f a =
      .ok (LittleEndian.toWord ((List.range n).map code), a + UInt64.ofNat n) := by
  rw [Decoder.fetchWord, bind_apply, h.fetchBytes]
  rfl

end Decoder

/-! Words and numbers that agree in their low bits. -/

section

variable {k : Nat} {u v : UInt64} {x y : Int}

theorem add_modEq (hk : k ≤ 64) (hu : (u.toNat : Int) ≡ x [ZMOD 2 ^ k])
    (hv : (v.toNat : Int) ≡ y [ZMOD 2 ^ k]) : ((u + v).toNat : Int) ≡ x + y [ZMOD 2 ^ k] := by
  rw [UInt64.toNat_add, Int.natCast_emod, Nat.cast_add]
  exact ((Int.mod_modEq _ _).of_dvd (by exact_mod_cast pow_dvd_pow 2 hk)).trans (hu.add hv)

theorem mul_modEq (hk : k ≤ 64) (hu : (u.toNat : Int) ≡ x [ZMOD 2 ^ k])
    (hv : (v.toNat : Int) ≡ y [ZMOD 2 ^ k]) : ((u * v).toNat : Int) ≡ x * y [ZMOD 2 ^ k] := by
  rw [UInt64.toNat_mul, Int.natCast_emod, Nat.cast_mul]
  exact ((Int.mod_modEq _ _).of_dvd (by exact_mod_cast pow_dvd_pow 2 hk)).trans (hu.mul hv)

end

namespace Width

variable {w : Width}

/-- A word extended with its sign. -/
theorem signExtend_modEq (hw : w.bytes ≤ 8) (v : UInt64) :
    ((w.signExtend v).toNat : Int) ≡ Arithmetic.number true w.bits v.toNat [ZMOD 2 ^ 64] := by
  have h : w.toInt v = Int.bmod (w.signExtend v).toNat (2 ^ 64) := BitVec.toInt_eq_toNat_bmod _
  rw [← Arithmetic.toInt_eq_number hw, h]
  exact (Int.bmod_emod (x := (w.signExtend v).toNat) (m := 2 ^ 64)).symm

end Width

namespace Machine

theorem word_eq (m : Machine) (c : Fin 16) :
    m.word c.val = (m.registers.slots.get (RegisterFile.generalSlot c)).toNat := by
  have hslot : m.registers.slots[c.val]? =
    some (m.registers.slots.get (RegisterFile.generalSlot c)) := Vector.getElem?_eq_getElem _
  rw [word, hslot, Option.getD_some]

theorem toNat_readGeneral (m : Machine) (c : Fin 16) (w : Width) :
    (m.registers.readGeneral c w).toNat = m.word c.val % w.modulus := by
  rw [word_eq]
  exact w.toNat_and_mask _

theorem toNat_readHigh (m : Machine) (c : Fin 16) :
    (m.registers.readHigh c).toNat = m.word c.val / 2 ^ 8 % 2 ^ 8 := by
  rw [word_eq, ← Nat.shiftRight_eq_div_pow]
  exact Width.toNat_and_mask _ .byte

theorem toNat_get_general (m : Machine) (c : Fin 16) (w : Width) :
    (m.get (.general c w)).toNat = m.word c.val % w.modulus := by
  rw [get, Register.fetch_general, toNat_readGeneral]

/-- A register operand is the part of a whole register that it stands for. -/
theorem toNat_get_part (m : Machine) (c : Fin 16) (w : Width) (rex : Bool) :
    (m.get ⟨.general, c, w, rex⟩).toNat = m.part rex w c.val := by
  unfold get Register.fetch part
  dsimp only
  by_cases hhigh : w = .byte ∧ rex = false ∧ 4 ≤ c.val ∧ c.val < 8
  · rw [if_pos hhigh, if_pos (by simp [Register.isHighByte, hhigh]), toNat_readHigh]
    rfl
  · rw [if_neg hhigh, if_neg (by simpa [Register.isHighByte] using hhigh), toNat_readGeneral]

end Machine

theorem val_extendField (high : Bool) (field : Nat) :
    (extendField high field).val = field % 8 + 8 * high.toNat := by
  cases high <;> rfl

namespace Pointer

/-- The address before it is cut off. -/
def sum (p : Pointer) (m : Machine) : UInt64 :=
  p.displacement.toUInt64 + (if p.ipRelative then m.ip else 0) + (p.base.map m.get).getD 0 +
    (p.index.map fun r => m.get r * p.scale.toUInt64).getD 0

theorem resolve_eq (p : Pointer) (m : Machine) : p.resolve m = p.sum m &&& p.addressWidth.mask := rfl

theorem sum_add (p : Pointer) (d : Int64) (m : Machine) :
    Pointer.sum { p with displacement := p.displacement + d } m = p.sum m + d.toUInt64 := by
  unfold sum
  rw [Int64.toUInt64_add]
  ac_rfl

theorem sum_modEq {p : Pointer} {m : Machine} {k : Nat} {displacement ip base index : Int}
    (hk : k ≤ 64) (hd : (p.displacement.toUInt64.toNat : Int) ≡ displacement [ZMOD 2 ^ k])
    (hi : ((if p.ipRelative then m.ip else 0).toNat : Int) ≡ ip [ZMOD 2 ^ k])
    (hb : (((p.base.map m.get).getD 0).toNat : Int) ≡ base [ZMOD 2 ^ k])
    (hx : (((p.index.map fun r => m.get r * p.scale.toUInt64).getD 0).toNat : Int) ≡ index
      [ZMOD 2 ^ k]) :
    ((p.sum m).toNat : Int) ≡ displacement + ip + base + index [ZMOD 2 ^ k] :=
  add_modEq hk (add_modEq hk (add_modEq hk hd hi) hb) hx

end Pointer

namespace Addressing

variable {code : Nat → UInt8} {mods : Modifiers} {f : Fetch} {a : UInt64}

theorem addressBits_eq (mods : Modifiers) : addressBits mods = mods.addressWidth.bits := by
  unfold addressBits Modifiers.addressWidth
  split_ifs <;> rfl

theorem addressBits_le (mods : Modifiers) : addressBits mods ≤ 64 := by
  unfold addressBits
  split_ifs <;> decide

/-- A register of an address, at the width of addresses. -/
theorem register_modEq (mods : Modifiers) (m : Machine) (high : Bool) (field : Nat) :
    ((m.get (.general (extendField high field) mods.addressWidth)).toNat : Int) ≡
      m.word (field % 8 + 8 * high.toNat) [ZMOD 2 ^ addressBits mods] := by
  have hw := mods.addressWidth_bytes_le
  rw [Machine.toNat_get_general, val_extendField, Width.modulus_eq hw, addressBits_eq]
  push_cast
  exact Int.mod_modEq _ _

/-- A register operand, at the width of the operand. -/
theorem isRegister_general (mods : Modifiers) (w : Width) (c : Fin 16) :
    IsRegister mods w c.val (.register ⟨.general, c, w, mods.rex.isSome⟩) :=
  ⟨_, rfl, rfl, rfl, rfl, fun _ => Machine.toNat_get_part _ _ _ _⟩

/-- The displacement as a word. -/
theorem displacement_modEq (mods : Modifiers) {w : Width} {start : Nat} (hw : w.bytes ≤ 8)
    (hsize : displacementSize code = w.bytes) (hstart : displacementStart code = start) :
    ((w.signExtend (LittleEndian.toWord ((List.range w.bytes).map fun i =>
      code (start + i)))).toInt64.toUInt64.toNat : Int) ≡ displacement code
        [ZMOD 2 ^ addressBits mods] := by
  have hsign := Width.signExtend_modEq hw (LittleEndian.toWord ((List.range w.bytes).map fun i =>
    code (start + i)))
  rw [LittleEndian.toNat_toWord _ (by simpa using hw), List.map_map] at hsign
  rw [UInt64.toUInt64_toInt64, displacement, hsize, hstart]
  exact hsign.of_dvd (pow_dvd_pow 2 (addressBits_le mods))

theorem displacement_eq_zero (h : displacementSize code = 0) : displacement code = 0 := by
  rw [displacement, h]
  rfl

theorem zero_modEq (mods : Modifiers) : ((0 : UInt64).toNat : Int) ≡ 0 [ZMOD 2 ^ addressBits mods] :=
  congrArg (· % _) Nat.cast_zero

/-- What a pointer adds up to before the displacement that the mode asks for. -/
structure Based (code : Nat → UInt8) (mods : Modifiers) (w : Width) (p : Pointer) : Prop where
  width : p.width = w
  addressWidth : p.addressWidth = mods.addressWidth
  sum : ∀ m : Machine, ((p.sum m).toNat : Int) ≡
    base code mods m + index code mods m + (if mode code = 0 then displacement code else 0)
      [ZMOD 2 ^ addressBits mods]

def blank (mods : Modifiers) (w : Width) : Pointer :=
  { width := w, addressWidth := mods.addressWidth, segment := mods.segment }

theorem scale_toNat (n : Nat) (h : n < 4) : ((Sib.scaleOf n).toUInt64).toNat = 2 ^ n := by
  interval_cases n <;> rfl

theorem index_modEq (code : Nat → UInt8) (mods : Modifiers) (m : Machine) (h4 : rmField code = 4) :
    let field := extendField mods.bits.index ((code 1).toNat / 8)
    let r? := if field.val = 4 then none else some (Register.general field mods.addressWidth)
    (((r?.map fun r => m.get r * (Sib.scaleOf ((code 1).toNat / 64)).toUInt64).getD 0).toNat : Int) ≡
      index code mods m [ZMOD 2 ^ addressBits mods] := by
  intro field r?
  have hfield : field.val = indexField code + 8 * mods.bits.index.toNat := val_extendField _ _
  have hnone : field.val = 4 ↔ indexField code = 4 ∧ mods.bits.index = false := by
    have hlt : indexField code < 8 := Nat.mod_lt _ (by decide)
    rw [hfield]
    cases mods.bits.index <;> simp
  unfold index
  by_cases h : field.val = 4
  · rw [if_neg (by rw [not_and, not_not]; exact fun _ => hnone.1 h)]
    simp [r?, h]
  · have hscale : ((Sib.scaleOf ((code 1).toNat / 64)).toUInt64).toNat = 2 ^ scaleField code :=
      scale_toNat _ (by have := (code 1).toNat_lt; omega)
    rw [if_pos ⟨h4, mt hnone.2 h⟩]
    simp only [r?, if_neg h, Option.map_some, Option.getD_some]
    rw [Nat.cast_mul, ← hscale]
    exact mul_modEq (addressBits_le mods) (register_modEq mods m _ _) (Int.ModEq.refl _)

theorem sib_based (mods : Modifiers) (h : Decoder.Stand f a code (size code)) (hm : mode code ≠ 3)
    (h4 : rmField code = 4) (w : Width) :
    ∃ sib, Sib.decode mods (mode code) f (a + UInt64.ofNat 1) =
        .ok (sib, a + UInt64.ofNat (2 + if mode code = 0 then displacementSize code else 0)) ∧
      Based code mods w { blank mods w with
        base := sib.base, index := sib.index, scale := sib.scale
        displacement := sib.displacement } := by
  have hstart : displacementStart code = 2 := if_pos ⟨hm, h4⟩
  have hsize : size code = 2 + displacementSize code := by rw [size, hstart]
  have hbyte := (h.skip (k := 1) (by omega)).fetch (by omega)
  have htwo : a + UInt64.ofNat 1 + UInt64.ofNat 1 = a + UInt64.ofNat 2 := UInt64.add_assoc a 1 1
  rw [htwo] at hbyte
  have hk := addressBits_le mods
  unfold Sib.decode
  rw [Decoder.bind_apply, hbyte]
  dsimp only
  by_cases h5 : (code (1 + 0)).toNat % 8 = 5 ∧ mode code = 0
  · have hb : mode code = 0 ∧ baseField code = 5 := ⟨h5.2, h5.1⟩
    have hfour : displacementSize code = Width.dword.bytes := by
      simp [displacementSize, hb, h4, Width.bytes]
    have hword := (h.skip (k := 2) (by omega)).fetchWord
    rw [show size code - 2 = Width.dword.bytes by omega, UInt64.add_assoc, ← UInt64.ofNat_add]
      at hword
    rw [if_pos h5, Decoder.bind_apply, show 4 = Width.dword.bytes from rfl, hword, if_pos hb.1,
      hfour]
    refine ⟨_, rfl, rfl, rfl, fun m => ?_⟩
    have hdisplacement := displacement_modEq mods (by decide) hfour hstart
    refine Int.ModEq.trans (Pointer.sum_modEq hk hdisplacement (Int.ModEq.refl _)
      (Int.ModEq.refl _) (index_modEq code mods m h4)) (congrArg (· % _) ?_)
    simp [base, h4, hb, blank]
    ring
  · have hb : ¬(mode code = 0 ∧ baseField code = 5) := fun hb => h5 ⟨hb.2, hb.1⟩
    have hzero : (if mode code = 0 then displacementSize code else 0) = 0 := by
      split_ifs with h0
      · simpa [displacementSize, h0, h4] using hb
      · rfl
    rw [if_neg h5, hzero, Nat.add_zero]
    refine ⟨_, rfl, rfl, rfl, fun m => ?_⟩
    have hbase := register_modEq mods m mods.bits.base (code (1 + 0)).toNat
    refine Int.ModEq.trans (Pointer.sum_modEq hk (zero_modEq mods) (zero_modEq mods) hbase
      (index_modEq code mods m h4)) (congrArg (· % _) ?_)
    have hno : (if mode code = 0 then displacement code else 0) = 0 := by
      split_ifs with h0
      · exact displacement_eq_zero (by simpa [h0] using hzero)
      · rfl
    rw [hno, base, if_pos h4, if_neg hb, zero_add, zero_add, add_zero]
    rfl

/-- The operand without the displacement that the mode asks for. -/
theorem decodeBase_based (mods : Modifiers) (h : Decoder.Stand f a code (size code))
    (hm : mode code ≠ 3) (w : Width) :
    ∃ p, ModRm.decodeBase mods (mode code) (code 0).toNat (blank mods w) f (a + UInt64.ofNat 1) =
        .ok (p, a + UInt64.ofNat (displacementStart code +
          if mode code = 0 then displacementSize code else 0)) ∧ Based code mods w p := by
  unfold ModRm.decodeBase
  rw [show (code 0).toNat % 8 = rmField code from rfl]
  by_cases h4 : rmField code = 4
  · obtain ⟨sib, hsib, hbased⟩ := sib_based mods h hm h4 w
    have hstart : displacementStart code = 2 := if_pos ⟨hm, h4⟩
    rw [if_pos h4, Decoder.bind_apply, hsib, hstart]
    exact ⟨_, rfl, hbased⟩
  · have hstart : displacementStart code = 1 := if_neg fun hs => h4 hs.2
    have hk := addressBits_le mods
    have hindex (m : Machine) : index code mods m = 0 := if_neg fun hx => h4 hx.1
    rw [if_neg h4, hstart]
    by_cases h5 : rmField code = 5 ∧ mode code = 0
    · have hfour : displacementSize code = Width.dword.bytes := by
        simp [displacementSize, h5, Width.bytes]
      have hword := (h.skip (k := 1) (by rw [size]; omega)).fetchWord
      rw [show size code - 1 = Width.dword.bytes by rw [size]; omega, UInt64.add_assoc,
        ← UInt64.ofNat_add] at hword
      rw [if_pos h5, Decoder.bind_apply, show 4 = Width.dword.bytes from rfl, hword, if_pos h5.2,
        hfour]
      refine ⟨_, rfl, rfl, rfl, fun m => ?_⟩
      have hdisplacement := displacement_modEq mods (by decide) hfour hstart
      have hip : (m.ip.toNat : Int) ≡ m.ip.toNat [ZMOD 2 ^ addressBits mods] := Int.ModEq.refl _
      refine Int.ModEq.trans (Pointer.sum_modEq hk hdisplacement hip (zero_modEq mods)
        (zero_modEq mods)) (congrArg (· % _) ?_)
      rw [hindex, base, if_neg h4, if_pos h5.symm, if_pos h5.2]
      push_cast
      ring
    · have hzero : (if mode code = 0 then displacementSize code else 0) = 0 := by
        split_ifs with h0
        · simpa [displacementSize, h0, h4] using h5
        · rfl
      rw [if_neg h5, hzero, Nat.add_zero]
      refine ⟨_, rfl, rfl, rfl, fun m => ?_⟩
      have hbase := register_modEq mods m mods.bits.base (code 0).toNat
      refine Int.ModEq.trans (Pointer.sum_modEq hk (zero_modEq mods) (zero_modEq mods) hbase
        (zero_modEq mods)) (congrArg (· % _) ?_)
      have hno : (if mode code = 0 then displacement code else 0) = 0 := by
        split_ifs with h0
        · exact displacement_eq_zero (by simpa [h0] using hzero)
        · rfl
      rw [hno, hindex, base, if_neg h4, if_neg (mt And.symm h5), zero_add, zero_add]
      rfl

theorem isMemory_of_sum {p : Pointer} {w : Width} (hw : p.width = w)
    (ha : p.addressWidth = mods.addressWidth) (hs : ∀ m : Machine, ((p.sum m).toNat : Int) ≡
      base code mods m + index code mods m + displacement code [ZMOD 2 ^ addressBits mods]) :
    IsMemory code mods w (.memory p) := by
  refine ⟨p, rfl, hw, ha, fun m => ?_⟩
  rw [Pointer.resolve_eq, Width.toNat_and_mask, ha, Width.modulus_eq mods.addressWidth_bytes_le,
    ← addressBits_eq]
  push_cast
  exact hs m

/-- The operand with its displacement. -/
theorem decodeDisplacement_isMemory (h : Decoder.Stand f a code (size code)) (hm : mode code ≠ 3)
    {w : Width} {p : Pointer} (hp : Based code mods w p) :
    ∃ q, ModRm.decodeDisplacement (mode code) p f (a + UInt64.ofNat (displacementStart code +
        if mode code = 0 then displacementSize code else 0)) =
          .ok (q, a + UInt64.ofNat (size code)) ∧ IsMemory code mods w (.memory q) := by
  have hlt : mode code < 4 := by have := (code 0).toNat_lt; unfold mode; omega
  -- a displacement that the mode asks for is added to what there is
  have hadded (v : Width) (hv : v.bytes ≤ 8) (hsize : displacementSize code = v.bytes)
      (h0 : mode code ≠ 0) :
      ∃ q, (do
          let raw ← Decoder.fetchWord v.bytes
          return { p with displacement := p.displacement + (v.signExtend raw).toInt64 } :
            Decoder Pointer) f (a + UInt64.ofNat (displacementStart code)) =
          .ok (q, a + UInt64.ofNat (size code)) ∧ IsMemory code mods w (.memory q) := by
    have hword := (h.skip (k := displacementStart code) (Nat.le_add_right _ _)).fetchWord
    have hall : size code = displacementStart code + v.bytes := by rw [size, hsize]
    rw [hall, Nat.add_sub_cancel_left, UInt64.add_assoc, ← UInt64.ofNat_add, ← hall] at hword
    rw [Decoder.bind_apply, hword]
    refine ⟨_, rfl, isMemory_of_sum hp.width hp.addressWidth fun m => ?_⟩
    have hsum := hp.sum m
    rw [if_neg h0, add_zero] at hsum
    rw [Pointer.sum_add]
    exact add_modEq (addressBits_le mods) hsum
      (displacement_modEq mods hv hsize rfl)
  unfold ModRm.decodeDisplacement
  obtain h0 | h1 | h2 : mode code = 0 ∨ mode code = 1 ∨ mode code = 2 := by omega
  · rw [if_neg (by omega), if_neg (by omega), if_pos h0, ← size]
    refine ⟨p, rfl, isMemory_of_sum hp.width hp.addressWidth fun m => ?_⟩
    have hsum := hp.sum m
    rwa [if_pos h0] at hsum
  · rw [if_pos h1, if_neg (by omega), Nat.add_zero]
    exact hadded .byte (by decide) (by rw [displacementSize, h1]; rfl) (by omega)
  · rw [if_neg (by omega), if_pos h2, if_neg (by omega), Nat.add_zero]
    exact hadded .dword (by decide) (by rw [displacementSize, h2]; rfl) (by omega)

theorem decodeOperand_implements (mods : Modifiers) (h : Decoder.Stand f a code (size code))
    (w : Width) :
    ∃ o, ModRm.decodeOperand mods (mode code) (code 0).toNat w f (a + UInt64.ofNat 1) =
        .ok (o, a + UInt64.ofNat (size code)) ∧
      if mode code = 3 then
        IsRegister mods w (extendField mods.bits.base (code 0).toNat).val o
      else IsMemory code mods w o := by
  unfold ModRm.decodeOperand
  by_cases hm : mode code = 3
  · have hone : size code = 1 := by
      have hsib : ¬HasSib code := fun hs => hs.1 hm
      simp [size, displacementStart, hsib, displacementSize, hm]
    simp only [if_pos hm, hone]
    exact ⟨_, rfl, isRegister_general mods w _⟩
  · obtain ⟨p, hp, hbased⟩ := decodeBase_based mods h hm w
    obtain ⟨q, hq, hmemory⟩ := decodeDisplacement_isMemory h hm hbased
    have hblank : ({ width := w, addressWidth := mods.addressWidth, segment := mods.segment } :
      Pointer) = blank mods w := rfl
    simp only [if_neg hm]
    rw [hblank, Decoder.bind_apply, hp]
    dsimp only
    rw [Decoder.bind_apply, hq]
    exact ⟨_, rfl, hmemory⟩

/-- The bytes of an operand are decoded to what they stand for, and no other byte is taken. -/
theorem decode_implements (h : Decoder.Stand f a code (size code)) (mods : Modifiers) (w v : Width)
    (form : Form) : ∃ d, ModRm.decode mods w v form f a = .ok (d, a + UInt64.ofNat (size code)) ∧
      Implements code mods w v form d := by
  have hpos : 0 < size code := by
    unfold size displacementStart
    split_ifs <;> omega
  obtain ⟨o, ho, hoperand⟩ := decodeOperand_implements mods h w
  unfold ModRm.decode
  rw [Decoder.bind_apply, h.fetch hpos]
  dsimp only
  rw [Decoder.bind_apply, show (code 0).toNat / 64 = mode code from rfl, ho]
  refine ⟨_, rfl, rfl, val_extendField _ _, val_extendField _ _, ?_, hoperand⟩
  by_cases hx : form.extended
  · rw [if_pos hx]
    exact if_pos hx
  · rw [if_neg hx]
    exact ⟨_, if_neg hx, isRegister_general mods v _⟩

end Addressing

end LongMode
