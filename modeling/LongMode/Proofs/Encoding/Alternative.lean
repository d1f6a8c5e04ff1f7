import LongMode.Proofs.Encoding.Addressing
import LongMode.Proofs.Encoding.Opcodes
import LongMode.Proofs.Encoding.Prefix
import LongMode.Proofs.Execute.Alike
import LongMode.Proofs.Execute.Target
import LongMode.Proofs.Memory.BitString
/-!
Encodings of one instruction beside each other: two registers, with the destination in either field
of the ModRM byte; an immediate of one byte, and the same one sign-extended; an immediate beside the
accumulator, and beside register 0 in a ModRM byte.
-/

namespace LongMode

variable {f : Fetch} {a next : UInt64} {bytes : List UInt8} {mods : Modifiers}

/-! Decoders where the bytes are given. -/

/-- Nothing but these bytes can be read. -/
def Fetch.ofBytes (a : UInt64) (bytes : List UInt8) : Fetch := fun x =>
  match bytes[(x - a).toNat]? with
  | some b => .ok b
  | none => .error (.unmappedMemory x)

theorem Fetch.Holds.extends (h : f.Holds a bytes) : (ofBytes a bytes).Extends f := by
  intro x b hb
  unfold ofBytes at hb
  split at hb
  · next c hc =>
    cases hb
    rw [← Memory.add_offset a x]
    exact h _ _ hc
  · cases hb

/-- The bytes by their places; behind them there are zeros. -/
def codeOf (bytes : List UInt8) (i : Nat) : UInt8 := bytes[i]?.getD 0

theorem Fetch.stand_ofBytes (h : bytes.length ≤ 2 ^ 64) :
    Decoder.Stand (ofBytes a bytes) a (codeOf bytes) bytes.length := by
  intro i hi
  unfold ofBytes codeOf
  rw [Memory.toNat_offset (by omega), List.getElem?_eq_getElem hi]
  rfl

theorem Fetch.Holds.stand (h : f.Holds a bytes) :
    Decoder.Stand f a (codeOf bytes) bytes.length := by
  intro i hi
  rw [h i bytes[i] (List.getElem?_eq_getElem hi), codeOf, List.getElem?_eq_getElem hi]
  rfl

theorem map_codeOf (bytes : List UInt8) : (List.range bytes.length).map (codeOf bytes) = bytes := by
  refine List.ext_getElem (by simp) fun i _ hi => ?_
  rw [List.getElem_map, List.getElem_range, codeOf, List.getElem?_eq_getElem hi]
  rfl

theorem Decoder.fetchWord_of_holds (h : f.Holds a bytes) :
    fetchWord bytes.length f a =
      .ok (LittleEndian.toWord bytes, a + UInt64.ofNat bytes.length) := by
  rw [h.stand.fetchWord, map_codeOf]

theorem Immediate.decode_of_holds (w : Width) (form : Form) (h : f.Holds a bytes)
    (hlength : bytes.length = (storedWidth w form).bytes) (hr : form.relative = false) :
    decode w form f a =
      .ok (⟨(storedWidth w form).signExtend (LittleEndian.toWord bytes) &&& w.mask, w, false⟩,
        a + UInt64.ofNat bytes.length) := by
  unfold decode
  rw [Decoder.bind_apply, ← hlength, Decoder.fetchWord_of_holds h]
  simp only [hr, Bool.false_eq_true, if_false]
  rfl

/-- A byte extended to an immediate of any length, and on from there. -/
theorem Width.signExtend_stored {w : Width} (hw : w.bytes ≤ 8) (v : UInt64) :
    w.signExtend (LittleEndian.toWord (LittleEndian.ofWord w.bytes (Width.byte.signExtend v))) =
      Width.byte.signExtend v := by
  have hint {w : Width} (hw : w.bytes ≤ 8) (v : UInt64) :
      (w.signExtend v).toBitVec.toInt = Int.bmod v.toNat (2 ^ w.bits) :=
    Arithmetic.toInt_eq_number hw v
  set extended := Width.byte.signExtend v with hextended
  have hbyte : extended.toBitVec.toInt = Int.bmod v.toNat (2 ^ 8) := hint (w := .byte) (by decide) v
  have hword : Int.bmod extended.toNat (2 ^ 64) = extended.toBitVec.toInt :=
    (BitVec.toInt_eq_toNat_bmod _).symm
  have hbits : 8 * w.bytes = w.bits := rfl
  have hle : 2 ^ 8 ≤ 2 ^ w.bits :=
    Nat.pow_le_pow_right (by decide) (by rw [← hbits]; have := w.bytes_pos; omega)
  refine UInt64.toBitVec_inj.1 (BitVec.eq_of_toInt_eq ?_)
  rw [hint hw, LittleEndian.toNat_toWord_ofWord hw, hbits, Int.natCast_emod, Int.emod_bmod,
    ← Int.bmod_bmod_of_dvd (pow_dvd_pow 2 (Width.bits_le hw)), hword, hbyte]
  have hlow : -((2 ^ 8 : Nat) / 2 : Int) ≤ Int.bmod v.toNat (2 ^ 8) := Int.le_bmod (by decide)
  have hhigh : Int.bmod v.toNat (2 ^ 8) < ((2 ^ 8 : Nat) + 1 : Int) / 2 := Int.bmod_lt (by decide)
  exact Int.bmod_eq_of_le (by omega) (by omega)

def Modifiers.register (mods : Modifiers) (high : Bool) (field : Nat) (w : Width) : Register :=
  ⟨.general, extendField high field, w, mods.rex.isSome⟩

def registersByte (reg rm : Fin 8) : UInt8 := UInt8.ofNat (0xC0 + 8 * reg.val + rm.val)

theorem toNat_registersByte (reg rm : Fin 8) :
    (registersByte reg rm).toNat = 0xC0 + 8 * reg.val + rm.val :=
  UInt8.toNat_ofNat_of_lt (show _ < 2 ^ 8 by omega)

theorem extendField_congr (high : Bool) {n k : Nat} (h : n % 8 = k % 8) :
    extendField high n = extendField high k := by
  unfold extendField
  simp only [h]

theorem ModRm.decode_registers {reg rm : Fin 8} (hbyte : f a = .ok (registersByte reg rm))
    (w v : Width) (form : Form) : decode mods w v form f a = .ok (
      { mode := 3
        reg := extendField mods.bits.reg reg
        rm := extendField mods.bits.base rm
        destination := .register (mods.register mods.bits.base rm w)
        source := if form.extended then none
          else some (.register (mods.register mods.bits.reg reg v)) }, a + 1) := by
  have hnat := toNat_registersByte reg rm
  have h3 : (registersByte reg rm).toNat / 64 = 3 := by omega
  unfold decode decodeOperand Modifiers.register
  rw [Decoder.bind_apply, Decoder.fetch_of_ok hbyte]
  simp only [h3, if_true]
  rw [extendField_congr mods.bits.base (show (registersByte reg rm).toNat % 8 = rm % 8 by omega),
    extendField_congr mods.bits.reg (show (registersByte reg rm).toNat / 8 % 8 = reg % 8 by omega)]
  rfl

namespace Opcodes

theorem modRmPair_registers {reg rm : Fin 8} (hbyte : f a = .ok (registersByte reg rm))
    {w : Width} {form : Form} (hw : mods.operandWidth form.byteSized = w)
    (he : form.extended = false) : modRmPair mods form f a = .ok (
      if form.swapped then (.register (mods.register mods.bits.reg reg w),
        .register (mods.register mods.bits.base rm w))
      else (.register (mods.register mods.bits.base rm w),
        .register (mods.register mods.bits.reg reg w)), a + 1) := by
  unfold modRmPair
  rw [hw, Decoder.bind_apply, ModRm.decode_registers hbyte]
  simp only [he, Bool.false_eq_true, if_false]
  rw [Parts.pair_modRm form rfl he]
  rfl

theorem modRmImmediate_of_decode (form : Form) {d : ModRm} {i : Immediate} {b : UInt64}
    (hs : form.swapped = false)
    (hd : ModRm.decode mods (mods.operandWidth form.byteSized) (mods.operandWidth form.byteSized)
      { form with extended := true } f a = .ok (d, b))
    (hi : Immediate.decode (mods.operandWidth form.byteSized) { form with extended := true } f b =
      .ok (i, next)) :
    modRmImmediate mods form f a = .ok ((d.destination, .immediate i), next) := by
  unfold modRmImmediate
  dsimp only
  rw [Decoder.bind_apply, hd]
  dsimp only
  rw [Decoder.bind_apply, hi]
  dsimp only
  rw [Parts.pair_modRm_immediate d i { form with extended := true } rfl hs]
  rfl

theorem accumulatorImmediate_of_decode {form : Form} {i : Immediate} (hs : form.swapped = false)
    (hi : Immediate.decode (mods.operandWidth form.byteSized) form f a = .ok (i, next)) :
    accumulatorImmediate mods form f a = .ok
      ((.register (.accumulator (mods.operandWidth form.byteSized)), .immediate i), next) := by
  unfold accumulatorImmediate
  rw [Decoder.bind_apply, hi]
  dsimp only
  rw [Parts.pair_register_immediate _ _ _ hs]
  rfl

theorem immediateGroup_of_operands (opcode : Nat) {byte : UInt8} {form : Form}
    {p : Operand × Operand} (hbyte : f a = .ok byte)
    (hform : form = { byteSized := opcode = 0x80, shortImmediate := opcode = 0x83 })
    (hp : modRmImmediate mods form f a = .ok (p, next)) : immediateGroup mods opcode f a =
      .ok (.binary (.ofIndex (byte.toNat / 8 % 8)) p.1 p.2, next) := by
  subst hform
  unfold immediateGroup groupIndex
  rw [Decoder.bind_apply, Decoder.bind_apply, Decoder.peek_of_ok hbyte]
  dsimp only
  change (modRmImmediate mods _ >>= _) f a = _
  rw [Decoder.bind_apply, hp]
  rfl

end Opcodes

/-! The operations with more than one form. -/

def BinaryOp.index : BinaryOp → Nat
  | add => 0
  | or => 1
  | adc => 2
  | sbb => 3
  | and => 4
  | sub => 5
  | xor => 6
  | cmp => 7

theorem BinaryOp.ofIndex_index (op : BinaryOp) : ofIndex op.index = op := by
  cases op <;> rfl

theorem BinaryOp.index_lt (op : BinaryOp) : op.index < 8 := by
  cases op <;> decide

def widthBit (byteSized : Bool) : Nat := if byteSized then 0 else 1

/-- The operations on a ModRM pair that have a form for either direction. -/
inductive Directed where
  | binary (op : BinaryOp)
  | move

namespace Directed

/-- The opcode whose destination is the operand field. -/
def opcode : Directed → Nat
  | binary op => 8 * op.index
  | move => 0x88

def make : Directed → Operand → Operand → Instruction
  | binary op => .binary op
  | move => .move

theorem classic_eq (mods : Modifiers) (op : BinaryOp) (byteSized swapped : Bool) :
    Opcodes.classic mods (8 * op.index + widthBit byteSized + if swapped then 2 else 0) =
      Opcodes.modRmPair mods { byteSized, swapped } >>= fun p => pure (.binary op p.1 p.2) := by
  cases op <;> cases byteSized <;> cases swapped <;> rfl

theorem oneByte_eq (mods : Modifiers) (op : Directed) (byteSized swapped : Bool) :
    Opcodes.oneByte mods (op.opcode + widthBit byteSized + if swapped then 2 else 0) =
      Opcodes.modRmPair mods { byteSized, swapped } >>= fun p => pure (some (op.make p.1 p.2)) := by
  cases op with
  | binary op =>
    have hrow : 8 * op.index + widthBit byteSized + (if swapped then 2 else 0) < 0x40 ∧
        (8 * op.index + widthBit byteSized + (if swapped then 2 else 0)) % 8 < 6 := by
      have := op.index_lt
      unfold widthBit
      split_ifs <;> omega
    unfold Opcodes.oneByte opcode
    rw [if_pos hrow, classic_eq]
    simp [make]
  | move => cases byteSized <;> cases swapped <;> rfl

end Directed

/-- The operations that have a form for the accumulator and an immediate. -/
inductive WithImmediate where
  | binary (op : BinaryOp)
  /-- The first two members of the group are the same. -/
  | test (second : Bool)

namespace WithImmediate

def opcode : WithImmediate → Nat
  | binary op => 8 * op.index + 4
  | test _ => 0xA8

def group : WithImmediate → Nat
  | binary _ => 0x80
  | test _ => 0xF6

def field : WithImmediate → Fin 8
  | binary op => ⟨op.index, op.index_lt⟩
  | test second => if second then 1 else 0

def make : WithImmediate → Operand → Operand → Instruction
  | binary op => .binary op
  | test _ => .test

theorem classic_eq (mods : Modifiers) (op : BinaryOp) (byteSized : Bool) :
    Opcodes.classic mods (8 * op.index + 4 + widthBit byteSized) =
      Opcodes.accumulatorImmediate mods { byteSized } >>= fun p => pure (.binary op p.1 p.2) := by
  cases op <;> cases byteSized <;> rfl

theorem oneByte_eq (mods : Modifiers) (op : WithImmediate) (byteSized : Bool) :
    Opcodes.oneByte mods (op.opcode + widthBit byteSized) =
      Opcodes.accumulatorImmediate mods { byteSized } >>= fun p =>
        pure (some (op.make p.1 p.2)) := by
  cases op with
  | binary op =>
    have hrow : 8 * op.index + 4 + widthBit byteSized < 0x40 ∧
        (8 * op.index + 4 + widthBit byteSized) % 8 < 6 := by
      have := op.index_lt
      unfold widthBit
      split_ifs <;> omega
    unfold Opcodes.oneByte opcode
    rw [if_pos hrow, classic_eq]
    simp [make]
  | test second =>
    have hsingle : Opcodes.oneByte mods (0xA8 + widthBit byteSized) =
        Opcodes.accumulatorImmediate mods { byteSized } >>= fun p =>
          pure (some (.test p.1 p.2)) := by
      cases byteSized <;> rfl
    exact hsingle

theorem oneByte_group {byte : UInt8} (hbyte : f a = .ok byte) (op : WithImmediate)
    (byteSized : Bool) (hfield : byte.toNat / 8 % 8 = op.field) {p : Operand × Operand}
    (hp : Opcodes.modRmImmediate mods { byteSized } f a = .ok (p, next)) :
    Opcodes.oneByte mods (op.group + widthBit byteSized) f a =
      .ok (some (op.make p.1 p.2), next) := by
  cases op with
  | binary op =>
    have hgroup := Opcodes.immediateGroup_of_operands (0x80 + widthBit byteSized) hbyte
      (by cases byteSized <;> rfl) hp
    rw [hfield, field, op.ofIndex_index] at hgroup
    have hone : Opcodes.oneByte mods (0x80 + widthBit byteSized) =
        some <$> Opcodes.immediateGroup mods (0x80 + widthBit byteSized) := by
      cases byteSized <;> rfl
    rw [group, hone, Decoder.map_apply, hgroup]
    rfl
  | test second =>
    have hone : Opcodes.oneByte mods (0xF6 + widthBit byteSized) =
        some <$> Opcodes.unaryGroup mods (0xF6 + widthBit byteSized) := by
      cases byteSized <;> rfl
    have hbit : Opcodes.isByte (0xF6 + widthBit byteSized) = byteSized := by
      cases byteSized <;> rfl
    have hlt : byte.toNat / 8 % 8 < 2 := by
      rw [hfield]
      cases second <;> decide
    have htest : Opcodes.unaryGroup mods (0xF6 + widthBit byteSized) f a =
        .ok (.test p.1 p.2, next) := by
      unfold Opcodes.unaryGroup Opcodes.groupIndex
      rw [Decoder.bind_apply, Decoder.bind_apply, Decoder.peek_of_ok hbyte, hbit]
      change (if byte.toNat / 8 % 8 < 2 then _ else _ : Decoder Instruction) f a = _
      rw [if_pos hlt, Decoder.bind_apply, hp]
      rfl
    rw [group, hone, Decoder.map_apply, htest]
    rfl

end WithImmediate

/-! Whole encodings. -/

/-- Where these bytes stand from `a` on, they are an encoding of the instruction, and all of it. -/
def Instruction.EncodedBy (i : Instruction) (a : UInt64) (bytes : List UInt8) : Prop :=
  ∀ f, Fetch.Holds f a bytes → ∃ l, Located.at? f a = .ok l ∧ l.instruction = some i ∧
    l.next = a + UInt64.ofNat bytes.length

def IsOpcode (byte : UInt8) : Prop := Modifiers.isModifier byte = false ∧ byte ≠ Located.escape

instance (byte : UInt8) : Decidable (IsOpcode byte) := inferInstanceAs (Decidable (_ ∧ _))

theorem Located.body_of_oneByte {opcode : UInt8} {i : Option Instruction}
    (hopcode : IsOpcode opcode) (hb : f a = .ok opcode)
    (hi : Opcodes.oneByte mods opcode.toNat f (a + 1) = .ok (i, next)) :
    body mods f a = .ok ((.oneByte, opcode, i), next) := by
  have hdecode : OpcodeMap.decode .oneByte mods opcode f (a + 1) = .ok (i, next) := hi
  unfold body opcode?
  rw [Decoder.bind_apply, Decoder.bind_apply, Decoder.fetch_of_ok hb]
  dsimp only
  rw [if_neg hopcode.2]
  change (OpcodeMap.decode .oneByte mods opcode >>= fun i => pure (OpcodeMap.oneByte, opcode, i)) f
    (a + 1) = _
  rw [Decoder.bind_apply, hdecode]
  rfl

theorem Instruction.encodedBy_of_oneByte {i : Instruction} {p rest : List UInt8} {opcode : Nat}
    (hp : ∀ b ∈ p, Modifiers.isModifier b = true) (hlt : opcode < 256)
    (hopcode : IsOpcode (UInt8.ofNat opcode))
    (hi : ∀ f, Fetch.Holds f (a + UInt64.ofNat p.length + 1) rest →
      Opcodes.oneByte (Modifiers.ofRun p) opcode f (a + UInt64.ofNat p.length + 1) =
        .ok (some i, a + UInt64.ofNat p.length + 1 + UInt64.ofNat rest.length)) :
    i.EncodedBy a (p ++ UInt8.ofNat opcode :: rest) := by
  intro f h
  obtain ⟨hrun, h⟩ := Fetch.holds_append.1 h
  obtain ⟨hb, hrest⟩ := Fetch.holds_cons.1 h
  have hdecode := hi f hrest
  rw [← UInt8.toNat_ofNat_of_lt hlt] at hdecode
  have hbody := Located.body_of_oneByte hopcode hb hdecode
  rw [Located.at?_of_run hrun hp fun b hb' => by cases hb.symm.trans hb'; exact hopcode.1, hbody]
  refine ⟨_, rfl, rfl, ?_⟩
  dsimp only
  rw [add_one_add_ofNat, UInt64.add_assoc, ← UInt64.ofNat_add, List.length_append,
    List.length_cons]

namespace Directed

variable {p : List UInt8}

theorem isOpcode (op : Directed) (byteSized swapped : Bool) :
    op.opcode + widthBit byteSized + (if swapped then 2 else 0) < 256 ∧
      IsOpcode (UInt8.ofNat (op.opcode + widthBit byteSized + if swapped then 2 else 0)) := by
  cases op with
  | binary op => cases op <;> cases byteSized <;> cases swapped <;> decide
  | move => cases byteSized <;> cases swapped <;> decide

/-- The operation on two registers. -/
theorem encodedBy_registers (op : Directed) (byteSized swapped : Bool)
    (hp : ∀ b ∈ p, Modifiers.isModifier b = true) (hmods : Modifiers.ofRun p = mods) {w : Width}
    (hw : mods.operandWidth byteSized = w) (reg rm : Fin 8) (a : UInt64) :
    (if swapped then op.make (.register (mods.register mods.bits.reg reg w))
        (.register (mods.register mods.bits.base rm w))
      else op.make (.register (mods.register mods.bits.base rm w))
        (.register (mods.register mods.bits.reg reg w))).EncodedBy a
      (p ++ [UInt8.ofNat (op.opcode + widthBit byteSized + if swapped then 2 else 0),
        registersByte reg rm]) := by
  obtain ⟨hlt, hopcode⟩ := op.isOpcode byteSized swapped
  refine Instruction.encodedBy_of_oneByte hp hlt hopcode fun f h => ?_
  obtain ⟨hbyte, -⟩ := Fetch.holds_cons.1 h
  rw [hmods, oneByte_eq, Decoder.bind_apply, Opcodes.modRmPair_registers hbyte hw rfl]
  cases swapped <;> rfl

end Directed

namespace WithImmediate

variable {p imm : List UInt8}

def immediateOf (w : Width) (form : Form) (imm : List UInt8) : Immediate :=
  ⟨(Immediate.storedWidth w form).signExtend (LittleEndian.toWord imm) &&& w.mask, w, false⟩

theorem immediateOf_stored (w : Width) (byte : UInt8) :
    immediateOf w {} (LittleEndian.ofWord (Immediate.storedWidth w {}).bytes
      (Width.byte.signExtend byte.toUInt64)) = immediateOf w { shortImmediate := true } [byte] := by
  have hword : LittleEndian.toWord [byte] = byte.toUInt64 := by simp [LittleEndian.toWord]
  unfold immediateOf
  rw [Width.signExtend_stored (Immediate.storedWidth_bytes_le w {}), hword]
  rfl

theorem isOpcode (op : WithImmediate) (byteSized : Bool) :
    op.opcode + widthBit byteSized < 256 ∧ IsOpcode (UInt8.ofNat (op.opcode + widthBit byteSized)) ∧
      op.group + widthBit byteSized < 256 ∧
        IsOpcode (UInt8.ofNat (op.group + widthBit byteSized)) := by
  cases op with
  | binary op => cases op <;> cases byteSized <;> decide
  | test second => cases second <;> cases byteSized <;> decide

/-- The operation on the accumulator. -/
theorem encodedBy_accumulator (op : WithImmediate) (byteSized : Bool)
    (hp : ∀ b ∈ p, Modifiers.isModifier b = true) {w : Width}
    (hw : (Modifiers.ofRun p).operandWidth byteSized = w)
    (hlength : imm.length = (Immediate.storedWidth w {}).bytes) (a : UInt64) :
    (op.make (.register (.accumulator w)) (.immediate (immediateOf w {} imm))).EncodedBy a
      (p ++ UInt8.ofNat (op.opcode + widthBit byteSized) :: imm) := by
  obtain ⟨hlt, hopcode, -⟩ := op.isOpcode byteSized
  refine Instruction.encodedBy_of_oneByte hp hlt hopcode fun f h => ?_
  have himm := Immediate.decode_of_holds w { byteSized } h hlength rfl
  rw [← hw] at himm
  rw [oneByte_eq, Decoder.bind_apply, Opcodes.accumulatorImmediate_of_decode rfl himm, ← hw]
  rfl

/-- The member of the group on register 0. -/
theorem encodedBy_group (op : WithImmediate) (byteSized : Bool)
    (hp : ∀ b ∈ p, Modifiers.isModifier b = true) {w : Width}
    (hw : (Modifiers.ofRun p).operandWidth byteSized = w)
    (hbase : (Modifiers.ofRun p).bits.base = false)
    (hlength : imm.length = (Immediate.storedWidth w {}).bytes) (a : UInt64) :
    (op.make (.register ⟨.general, 0, w, (Modifiers.ofRun p).rex.isSome⟩)
      (.immediate (immediateOf w {} imm))).EncodedBy a
        (p ++ UInt8.ofNat (op.group + widthBit byteSized) :: registersByte op.field 0 :: imm) := by
  obtain ⟨-, -, hlt, hopcode⟩ := op.isOpcode byteSized
  refine Instruction.encodedBy_of_oneByte hp hlt hopcode fun f h => ?_
  obtain ⟨hbyte, h⟩ := Fetch.holds_cons.1 h
  have hfield : (registersByte op.field 0).toNat / 8 % 8 = op.field := by
    have := toNat_registersByte op.field 0
    omega
  have himm := Immediate.decode_of_holds w { byteSized, extended := true } h hlength rfl
  rw [← hw] at himm
  rw [oneByte_group hbyte op byteSized hfield
    (Opcodes.modRmImmediate_of_decode { byteSized } rfl (ModRm.decode_registers hbyte _ _ _) himm),
    Modifiers.register, hbase, hw, List.length_cons, ← add_one_add_ofNat]
  rfl

end WithImmediate

/-- The bytes are those of one operand, whose address does not count from the instruction
pointer. -/
structure IsOperand (bytes : List UInt8) : Prop where
  length : bytes.length = Addressing.size (codeOf bytes)
  fixed : ¬(Addressing.mode (codeOf bytes) = 0 ∧ Addressing.rmField (codeOf bytes) = 5)

namespace IsOperand

variable {p operand imm : List UInt8}

theorem length_le (h : IsOperand bytes) : bytes.length ≤ 6 := by
  rw [h.length]
  unfold Addressing.size Addressing.displacementStart Addressing.displacementSize
  split_ifs <;> split <;> omega

theorem address_eq (h : IsOperand bytes) (mods : Modifiers) (m : Machine) (a : UInt64) :
    Addressing.address (codeOf bytes) mods { m with ip := a } =
      Addressing.address (codeOf bytes) mods m := by
  have hbase : Addressing.base (codeOf bytes) mods { m with ip := a } =
      Addressing.base (codeOf bytes) mods m := by
    unfold Addressing.base
    simp only [h.fixed, if_false]
    rfl
  unfold Addressing.address
  rw [hbase]
  rfl

/-- Wherever the bytes are read from, they are the same operand. -/
theorem exists_decode (h : IsOperand bytes) (mods : Modifiers) (w : Width) (form : Form)
    (a : UInt64) : ∃ d : ModRm, d.destination.Alike d.destination ∧ ∀ f, Fetch.Holds f a bytes →
      ModRm.decode mods w w form f a = .ok (d, a + UInt64.ofNat bytes.length) := by
  have hstand := Fetch.stand_ofBytes (a := a) (h.length_le.trans (by decide))
  rw [h.length] at hstand
  obtain ⟨d, hd, himplements⟩ := Addressing.decode_implements hstand mods w w form
  rw [← h.length] at hd
  refine ⟨d, ?_, fun f hf => (ModRm.decode_reads mods w w form).extend hf.extends hd⟩
  have hdestination := himplements.destination
  split_ifs at hdestination
  · obtain ⟨r, hr, -⟩ := hdestination
    rw [hr]
    exact Operand.alike_register (fun _ => rfl) (fun _ _ => rfl) rfl rfl
  · obtain ⟨q, hq, -, -, haddress⟩ := hdestination
    rw [hq]
    refine Operand.alike_memory fun m b => UInt64.toNat_inj.1 (Int.ofNat_inj.1 ?_)
    rw [haddress, haddress, h.address_eq]

/-- The members of the two groups for operands that are no bytes. -/
theorem encodedBy_group (h : IsOperand operand) (hp : ∀ b ∈ p, Modifiers.isModifier b = true)
    (short : Bool) {w : Width} (hw : (Modifiers.ofRun p).operandWidth false = w)
    (hlength : imm.length = (Immediate.storedWidth w { shortImmediate := short }).bytes) {d : ModRm}
    (hd : ∀ f, Fetch.Holds f (a + UInt64.ofNat p.length + 1) operand →
      ModRm.decode (Modifiers.ofRun p) w w { extended := true } f (a + UInt64.ofNat p.length + 1) =
        .ok (d, a + UInt64.ofNat p.length + 1 + UInt64.ofNat operand.length)) :
    (Instruction.binary (.ofIndex (Addressing.regField (codeOf operand))) d.destination
      (.immediate (WithImmediate.immediateOf w { shortImmediate := short } imm))).EncodedBy a
        (p ++ UInt8.ofNat (if short then 0x83 else 0x81) :: (operand ++ imm)) := by
  have hlt : (if short then 0x83 else 0x81) < 256 := by split_ifs <;> decide
  have hopcode : IsOpcode (UInt8.ofNat (if short then 0x83 else 0x81)) := by
    cases short <;> decide
  refine Instruction.encodedBy_of_oneByte hp hlt hopcode fun f hf => ?_
  obtain ⟨hoperand, himm⟩ := Fetch.holds_append.1 hf
  have hbyte : f (a + UInt64.ofNat p.length + 1) = .ok (codeOf operand 0) := by
    have hpos : 0 < operand.length := by
      rw [h.length]
      unfold Addressing.size Addressing.displacementStart
      split_ifs <;> omega
    simpa using hoperand.stand 0 hpos
  have hvalue := Immediate.decode_of_holds w { shortImmediate := short, extended := true } himm
    hlength rfl
  subst hw
  have hpair := Opcodes.modRmImmediate_of_decode { shortImmediate := short } rfl (hd f hoperand)
    hvalue
  have hgroup := Opcodes.immediateGroup_of_operands (if short then 0x83 else 0x81) hbyte
    (by cases short <;> rfl) hpair
  have hone : Opcodes.oneByte (Modifiers.ofRun p) (if short then 0x83 else 0x81) =
      some <$> Opcodes.immediateGroup (Modifiers.ofRun p) (if short then 0x83 else 0x81) := by
    cases short <;> rfl
  rw [hone, Decoder.map_apply, hgroup, List.length_append, UInt64.ofNat_add, ← UInt64.add_assoc]
  rfl

end IsOperand

/-! Two encodings of one instruction. -/

def Rex.exchanged (r : Rex) : Rex := { r with reg := r.base, base := r.reg }

def Modifiers.exchanged (m : Modifiers) : Modifiers := { m with rex := m.rex.map Rex.exchanged }

theorem Modifiers.bits_exchanged (m : Modifiers) : m.exchanged.bits = m.bits.exchanged := by
  unfold bits exchanged
  cases m.rex <;> rfl

theorem Modifiers.operandWidth_exchanged (m : Modifiers) (byteSized : Bool) :
    m.exchanged.operandWidth byteSized = m.operandWidth byteSized := by
  unfold operandWidth
  rw [bits_exchanged]
  rfl

theorem Modifiers.register_exchanged (m : Modifiers) (high : Bool) (field : Nat) (w : Width) :
    m.exchanged.register high field w = m.register high field w := by
  unfold register exchanged
  rw [Option.isSome_map]

/-- The two byte strings are encodings of one instruction, and not the same encoding. -/
inductive Alternative : List UInt8 → List UInt8 → Prop
  /-- Two registers, where either field of the ModRM byte can be the destination. -/
  | registers (op : Directed) (byteSized : Bool) (reg rm : Fin 8) {p q : List UInt8}
    (hp : ∀ b ∈ p, Modifiers.isModifier b = true) (hq : ∀ b ∈ q, Modifiers.isModifier b = true)
    (hrun : Modifiers.ofRun q = (Modifiers.ofRun p).exchanged) :
    Alternative (p ++ [UInt8.ofNat (op.opcode + widthBit byteSized), registersByte reg rm])
      (q ++ [UInt8.ofNat (op.opcode + widthBit byteSized + 2), registersByte rm reg])
  /-- An immediate of one byte, and the same one extended to its sign. -/
  | immediate (byte : UInt8) {p operand : List UInt8}
    (hp : ∀ b ∈ p, Modifiers.isModifier b = true) (hoperand : IsOperand operand) :
    Alternative (p ++ 0x83 :: (operand ++ [byte]))
      (p ++ 0x81 :: (operand ++ LittleEndian.ofWord
        (Immediate.storedWidth ((Modifiers.ofRun p).operandWidth false) {}).bytes
        (Width.byte.signExtend byte.toUInt64)))
  /-- The accumulator as such, and as register 0. -/
  | accumulator (op : WithImmediate) (byteSized : Bool) {p imm : List UInt8}
    (hp : ∀ b ∈ p, Modifiers.isModifier b = true) (hbase : (Modifiers.ofRun p).bits.base = false)
    (hlength : imm.length =
      (Immediate.storedWidth ((Modifiers.ofRun p).operandWidth byteSized) {}).bytes) :
    Alternative (p ++ UInt8.ofNat (op.opcode + widthBit byteSized) :: imm)
      (p ++ UInt8.ofNat (op.group + widthBit byteSized) :: registersByte op.field 0 :: imm)

theorem Operand.alike_register_self (r : Register) : (register r).Alike (register r) :=
  alike_register (fun _ => rfl) (fun _ _ => rfl) rfl rfl

theorem Directed.make_alike (op : Directed) {dst dst' src src' : Operand} (hdst : dst.Alike dst')
    (hsrc : src.Alike src') : (op.make dst src).Alike (op.make dst' src') := by
  cases op with
  | binary op => exact Instruction.binary_alike op hdst hsrc
  | move => exact Instruction.move_alike hdst hsrc

theorem WithImmediate.make_alike (op : WithImmediate) {dst dst' src src' : Operand}
    (hdst : dst.Alike dst') (hsrc : src.Alike src') :
    (op.make dst src).Alike (op.make dst' src') := by
  cases op with
  | binary op => exact Instruction.binary_alike op hdst hsrc
  | test second => exact Instruction.test_alike hdst hsrc

theorem Alternative.exists_alike {left right : List UInt8} (h : Alternative left right)
    (a : UInt64) :
    ∃ i i' : Instruction, i.EncodedBy a left ∧ i'.EncodedBy a right ∧ i.Alike i' := by
  cases h with
  | @registers op byteSized reg rm p q hp hq hrun =>
    have hleft := op.encodedBy_registers byteSized false hp rfl rfl reg rm a
    have hright := op.encodedBy_registers byteSized true hq hrun
      (Modifiers.operandWidth_exchanged _ _) rm reg a
    rw [Modifiers.register_exchanged, Modifiers.register_exchanged, Modifiers.bits_exchanged]
      at hright
    exact ⟨_, _, hleft, hright, op.make_alike (Operand.alike_register_self _)
      (Operand.alike_register_self _)⟩
  | @immediate byte p operand hp hoperand =>
    obtain ⟨d, halike, hd⟩ := hoperand.exists_decode (Modifiers.ofRun p)
      ((Modifiers.ofRun p).operandWidth false) { extended := true } (a + UInt64.ofNat p.length + 1)
    have hone : [byte].length = (Immediate.storedWidth ((Modifiers.ofRun p).operandWidth false)
        { shortImmediate := true }).bytes := rfl
    have hleft := hoperand.encodedBy_group hp true rfl hone hd
    have hright := hoperand.encodedBy_group hp false rfl
      (LittleEndian.length_ofWord _ (Width.byte.signExtend byte.toUInt64)) hd
    rw [WithImmediate.immediateOf_stored] at hright
    exact ⟨_, _, hleft, hright, Instruction.binary_alike _ halike (Operand.alike_immediate _)⟩
  | @accumulator op byteSized p imm hp hbase hlength =>
    exact ⟨_, _, op.encodedBy_accumulator byteSized hp rfl hlength a,
      op.encodedBy_group byteSized hp rfl hbase hlength a,
      op.make_alike (Operand.alike_accumulator _ _) (Operand.alike_immediate _)⟩

end LongMode
