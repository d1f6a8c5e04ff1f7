import LongMode.Proofs.Arithmetic.Bits
import LongMode.Proofs.Encoding.Operands
import LongMode.Proofs.Execute.Pair
import LongMode.Proofs.Guarded.Execute
import LongMode.Proofs.Memory.BitString
import LongMode.Proofs.Run.Step
/-!
Bit tests. With a register offset a memory operand is the middle of a string of bits that goes on in
both directions, and the offset picks any bit of it; otherwise the offset picks a bit of the operand.
The bit goes to the carry flag and becomes what the operation makes of it. Every other bit stays.
-/

namespace LongMode

open Arithmetic

def BitOp.result : BitOp → Bool → Bool
  | test, old => old
  | set, _ => true
  | reset, _ => false
  | complement, old => !old

/-- The bit `k` of the string that starts at `a` has been tested in memory. -/
structure MemoryBitTested (op : BitOp) (a : UInt64) (k : Int) (m n : Machine) : Prop where
  flags : n.flags =
    { m.flags with carry := some (m.memory.bit (a + .ofInt (k / 8)) (k % 8).toNat) }
  bits : ∀ x i, i < 8 → n.memory.bit x i = if x = a + .ofInt (k / 8) ∧ (i : Int) = k % 8 then
    op.result (m.memory.bit x i) else m.memory.bit x i
  registers : n.registers = m.registers
  breakpoints : n.breakpoints = m.breakpoints

/-- The bit `i` of a register has been tested. -/
structure RegisterBitTested (op : BitOp) (r : Register) (i : Nat) (m n : Machine) : Prop where
  flags : n.flags = { m.flags with carry := some ((m.get r).toNat.testBit i) }
  bits : ∀ j < r.width.bits, (n.get r).toNat.testBit j =
    if j = i then op.result ((m.get r).toNat.testBit j) else (m.get r).toNat.testBit j
  others : ∀ q : Register, q.slot ≠ r.slot → n.get q = m.get q
  memory : n.memory = m.memory
  breakpoints : n.breakpoints = m.breakpoints

/-- Where the instruction is does not matter to a bit test. -/
theorem MemoryBitTested.moved {op : BitOp} {a b : UInt64} {k : Int} {m n : Machine}
    (h : MemoryBitTested op a k { m with ip := b } n) : MemoryBitTested op a k m n :=
  ⟨h.flags, h.bits, h.registers, h.breakpoints⟩

theorem RegisterBitTested.moved {op : BitOp} {r : Register} {i : Nat} {b : UInt64} {m n : Machine}
    (h : RegisterBitTested op r i { m with ip := b } n) : RegisterBitTested op r i m n :=
  ⟨h.flags, h.bits, h.others, h.memory, h.breakpoints⟩

namespace Execute

variable {op : BitOp} {m : Machine} {v u raw : UInt64} {i : Nat}

theorem testBit_not {v : UInt64} {j : Nat} (hj : j < 64) :
    (~~~v).toNat.testBit j = !v.toNat.testBit j := by
  have h : (~~~v).toNat = 2 ^ 64 - (v.toNat + 1) := by
    rw [UInt64.toNat_not]
    have hv := v.toNat_lt
    change 2 ^ 64 - 1 - _ = _
    omega
  rw [h, Nat.testBit_two_pow_sub_succ v.toNat_lt, decide_eq_true hj, Bool.true_and]

/-- The word after a bit operation differs in the one bit. -/
theorem testBit_bitResult (hi : i < 64) (h : bitResult op v (1 <<< UInt64.ofNat i) = some u) {j : Nat}
    (hj : j < 64) : u.toNat.testBit j =
      if j = i then op.result (v.toNat.testBit i) else v.toNat.testBit j := by
  have hmask : ((1 : UInt64) <<< UInt64.ofNat i).toNat.testBit j = decide (j = i) := by
    rw [toNat_bit hi, Nat.testBit_two_pow, decide_eq_decide, eq_comm]
  cases op <;> cases h <;>
    simp only [BitOp.result, UInt64.toNat_or, UInt64.toNat_and, UInt64.toNat_xor, Nat.testBit_or,
      Nat.testBit_and, Nat.testBit_xor, testBit_not hj, hmask] <;>
    by_cases hji : j = i <;> simp [hji]

/-- The bits of memory after a bit operation on a word that stands there. -/
theorem bit_bitWritten (op : BitOp) {w : Width} {a : UInt64} (hw : w.bytes ≤ 8) (hi : i < w.bits)
    (hv : m.memory.readWord a w = .ok v) (x : UInt64) {j : Nat} (hj : j < 8) :
    (match bitResult op v (1 <<< UInt64.ofNat i) with
      | some u => m.memory.writeWord a w u
      | none => m.memory).bit x j =
      if x = a + UInt64.ofNat (i / 8) ∧ j = i % 8 then op.result (m.memory.bit x j)
      else m.memory.bit x j := by
  have hbits := Width.bits_le hw
  have hold := Memory.testBit_of_readWord hw hv hi
  cases hu : bitResult op v (1 <<< UInt64.ofNat i) with
  | some u =>
    dsimp only
    rw [Memory.bit_writeWord_of_flipped hw hv hi
      (fun j hj => testBit_bitResult (by omega) hu (by omega)) hj, hold]
    split_ifs with h
    · rw [h.1, h.2]
    · rfl
  | none =>
    have hop : op = .test := by cases op <;> first | rfl | cases hu
    subst hop
    split_ifs <;> rfl

theorem bitTest_of_memory {p : Pointer} {offset : Operand} {a : UInt64}
    (hraw : read offset m = .ok raw) (hplace : bitPlace (.memory p) offset raw m = (some a, i))
    (hv : m.memory.readWord a p.width = .ok v) : bitTest op (.memory p) offset m =
      .ok (Machine.define { m with memory := match bitResult op v (1 <<< UInt64.ofNat i) with
        | some u => m.memory.writeWord a p.width u
        | none => m.memory } (carryFlags (v &&& (1 <<< UInt64.ofNat i) != 0))) := by
  have hv : m.readWord a p.width = .ok v := hv
  unfold bitTest
  rw [hraw]
  dsimp only [ok_bind]
  rw [hplace]
  dsimp only [Operand.width]
  rw [hv, orFault_ok, ok_bind]
  cases bitResult op v (1 <<< UInt64.ofNat i) <;> rfl

theorem bitTest_of_register {r : Register} {offset : Operand} (hraw : read offset m = .ok raw) :
    bitTest op (.register r) offset m =
      .ok (Machine.define
        (match bitResult op (m.get r) (1 <<< UInt64.ofNat (raw.toNat % r.width.bits)) with
          | some u => m.set r u
          | none => m)
        (carryFlags (m.get r &&& (1 <<< UInt64.ofNat (raw.toNat % r.width.bits)) != 0))) := by
  unfold bitTest
  rw [hraw]
  dsimp only [ok_bind, bitPlace, Operand.width]
  rw [show read (.register r) m = .ok (m.get r) from rfl, ok_bind]
  cases bitResult op (m.get r) (1 <<< UInt64.ofNat (raw.toNat % r.width.bits)) <;> rfl

end Execute

namespace Machine

variable {s : Settings} {m : Machine} {l : Located} {op : BitOp} {base offset : Operand}

theorem define_carryFlags (m : Machine) (b : Bool) :
    m.define (Execute.carryFlags b) = { m with flags := { m.flags with carry := some b } } := by
  simp [define, Execute.carryFlags, Flags.overlap, Flags.zipWith]

/-- A string of bits in elements: the element that holds the bit `k`, and the place in there. -/
theorem bit_place (w : Width) (a : UInt64) (k : Int) :
    a + UInt64.ofInt (k / w.bits * w.bytes) + UInt64.ofNat ((k % w.bits).toNat / 8) =
        a + UInt64.ofInt (k / 8) ∧ (((k % w.bits).toNat % 8 : Nat) : Int) = k % 8 ∧
      (k % w.bits).toNat < w.bits := by
  have hsum : k / w.bits * w.bytes + ((k % w.bits).toNat / 8 : Nat) = k / 8 := by
    cases w <;> simp only [Width.bits, Width.bytes] <;> omega
  refine ⟨?_, ?_, ?_⟩
  · rw [UInt64.add_assoc, ← ofInt_natCast, ← UInt64.ofInt_add, hsum]
  · cases w <;> simp only [Width.bits, Width.bytes] <;> omega
  · have hpos : (0 : Int) < w.bits := by exact_mod_cast w.bits_pos
    have hlt := Int.emod_lt_of_pos k hpos
    omega

/-- A bit test in memory, of the bit `k` of the string that starts at the operand. -/
theorem memoryBitTested_of_place {p : Pointer} {raw : UInt64} {k : Int} (hw : p.width.bytes ≤ 8)
    (hm : m.memory.strict = false) (hraw : Execute.read offset m = .ok raw)
    (hplace : Execute.bitPlace (.memory p) offset raw m =
      (some (p.resolve m + .ofInt (k / p.width.bits * p.width.bytes)),
        (k % p.width.bits).toNat)) :
    ∃ n, Execute.bitTest op (.memory p) offset m = .ok n ∧ n.ip = m.ip ∧
      MemoryBitTested op (p.resolve m) k m n := by
  obtain ⟨hbyte, hbit, hlt⟩ := bit_place p.width (p.resolve m) k
  have hbits := Width.bits_le hw
  obtain ⟨v, hv⟩ := Memory.exists_readWord hm
    (p.resolve m + .ofInt (k / p.width.bits * p.width.bytes)) p.width
  have hold := Memory.testBit_of_readWord hw hv hlt
  have hbit' : (k % p.width.bits).toNat % 8 = (k % 8).toNat := by omega
  rw [hbyte, hbit'] at hold
  rw [Execute.bitTest_of_memory hraw hplace hv, define_carryFlags, and_bit (by omega), hold]
  refine ⟨_, rfl, rfl, rfl, fun x j hj => ?_, rfl, rfl⟩
  have hwritten := Execute.bit_bitWritten op hw hlt hv x hj
  rw [hbyte] at hwritten
  refine hwritten.trans (if_congr ?_ rfl rfl)
  rw [← hbit, Nat.cast_inj]

/-- A bit test in a register. -/
theorem registerBitTested_of_read {r : Register} {raw : UInt64} (hw : r.width.bytes ≤ 8)
    (hr : r.bank = .general) (hraw : Execute.read offset m = .ok raw) :
    ∃ n, Execute.bitTest op (.register r) offset m = .ok n ∧ n.ip = m.ip ∧
      RegisterBitTested op r (raw.toNat % r.width.bits) m n := by
  have hbits := Width.bits_le hw
  have hlt : raw.toNat % r.width.bits < r.width.bits := Nat.mod_lt _ r.width.bits_pos
  rw [Execute.bitTest_of_register hraw, define_carryFlags, and_bit (by omega)]
  refine ⟨_, rfl, ?_⟩
  cases hu : Execute.bitResult op (m.get r) (1 <<< UInt64.ofNat (raw.toNat % r.width.bits)) with
  | none =>
    have hop : op = .test := by cases op <;> first | rfl | cases hu
    subst hop
    exact ⟨rfl, rfl, fun j _ => by split_ifs <;> rfl, fun _ _ => rfl, rfl, rfl⟩
  | some u =>
    refine ⟨rfl, rfl, fun j hj => ?_, fun q hq => ?_, rfl, rfl⟩
    · change (r.fetch (r.set m.registers u)).toNat.testBit j = _
      rw [Register.fetch_set hr, Width.toNat_and_mask, Width.modulus_eq hw, Nat.testBit_mod_two_pow,
        decide_eq_true hj, Bool.true_and, Execute.testBit_bitResult (by omega) hu (by omega)]
      split_ifs with hji
      · rw [hji]
      · rfl
    · exact Register.fetch_set_of_slot_ne hq m.registers u

theorem place_of_register {p : Pointer} {r : Register} (hw : p.width.bytes ≤ 8)
    (hr : r.width = p.width) (m : Machine) (raw : UInt64) :
    let k := Arithmetic.number true p.width.bits raw.toNat
    Execute.bitPlace (.memory p) (.register r) raw m =
      (some (p.resolve m + .ofInt (k / p.width.bits * p.width.bytes)),
        (k % p.width.bits).toNat) := by
  intro k
  have hpos : (0 : Int) ≤ p.width.bits := Int.natCast_nonneg _
  have hk : r.width.toInt raw = k := by rw [hr, toInt_eq_number hw]
  unfold Execute.bitPlace
  simp only [Operand.width, Operand.isRegister, if_true, hk, Int.fdiv_eq_ediv_of_nonneg _ hpos,
    Int.fmod_eq_emod_of_nonneg _ hpos]

theorem place_of_immediate (p : Pointer) (v : Immediate) (m : Machine) (raw : UInt64) :
    let k : Int := raw.toNat % p.width.bits
    Execute.bitPlace (.memory p) (.immediate v) raw m =
      (some (p.resolve m + .ofInt (k / p.width.bits * p.width.bytes)),
        (k % p.width.bits).toNat) := by
  intro k
  have hpos : (0 : Int) < p.width.bits := by exact_mod_cast p.width.bits_pos
  have hk : k / p.width.bits = 0 :=
    Int.ediv_eq_zero_of_lt (Int.emod_nonneg _ hpos.ne') (Int.emod_lt_of_pos _ hpos)
  have hbit : (k % p.width.bits).toNat = raw.toNat % p.width.bits := by
    rw [Int.emod_emod]
    rfl
  have hstart : UInt64.ofInt (0 * p.width.bytes) = 0 := by
    rw [zero_mul]
    rfl
  rw [hk, hbit, hstart, UInt64.add_zero]
  rfl

/-- The bit that a bit test in memory tests: any bit of the string for a register offset, a bit of
the operand for an immediate one. -/
theorem bitTest_memory {p : Pointer} (hw : p.width.bytes ≤ 8) (hm : m.memory.strict = false) :
    (∀ r : Register, r.width = p.width →
      ∃ n, Execute.bitTest op (.memory p) (.register r) m = .ok n ∧ n.ip = m.ip ∧
        MemoryBitTested op (p.resolve m) (Arithmetic.number true p.width.bits (m.get r).toNat) m n) ∧
    ∀ v : Immediate, ∃ n, Execute.bitTest op (.memory p) (.immediate v) m = .ok n ∧ n.ip = m.ip ∧
      MemoryBitTested op (p.resolve m) (v.value.toNat % p.width.bits) m n :=
  ⟨fun _ hr => memoryBitTested_of_place hw hm rfl (place_of_register hw hr m _),
    fun v => memoryBitTested_of_place hw hm rfl (place_of_immediate p v m _)⟩

theorem exists_read (hm : m.memory.strict = false) (o : Operand) : ∃ v, o.read m = .ok v := by
  cases o with
  | register r => exact ⟨_, rfl⟩
  | memory p => exact Memory.exists_readWord hm _ _
  | immediate i => exact ⟨_, rfl⟩

/-- Whatever operands the encoding gives it, a bit test completes and tests the bit they pick. -/
theorem exists_bitTested (hwell : (Instruction.bitTest op base offset).WellFormed)
    (hsame : offset.isRegister → offset.width = base.width)
    (hgeneral : ∀ r, base = .register r → r.bank = .general) (hm : m.memory.strict = false) :
    ∃ n, Execute.bitTest op base offset m = .ok n ∧ n.ip = m.ip ∧
      (∀ p r, base = .memory p → offset = .register r → MemoryBitTested op (p.resolve m)
        (Arithmetic.number true p.width.bits (m.get r).toNat) m n) ∧
      (∀ p v, base = .memory p → offset = .immediate v →
        MemoryBitTested op (p.resolve m) (v.value.toNat % p.width.bits) m n) ∧
      ∀ r raw, base = .register r → offset.read m = .ok raw →
        RegisterBitTested op r (raw.toNat % r.width.bits) m n := by
  have hw : base.width.bytes ≤ 8 := hwell.operand_width (by simp [Instruction.operands])
  cases base with
  | immediate v => cases hwell.written (.immediate v) (by simp [Instruction.written])
  | register r =>
    obtain ⟨raw, hraw⟩ := exists_read hm offset
    obtain ⟨n, hx, hip, htested⟩ := registerBitTested_of_read hw (hgeneral r rfl)
      (Execute.read_of_ok hraw)
    refine ⟨n, hx, hip, ?_, ?_, ?_⟩
    · rintro _ _ ⟨⟩
    · rintro _ _ ⟨⟩
    · rintro _ raw' ⟨⟩ hraw'
      cases hraw.symm.trans hraw'
      exact htested
  | memory p =>
    obtain ⟨hregister, himmediate⟩ := bitTest_memory hw hm
    cases offset with
    | register r =>
      obtain ⟨n, hx, hip, htested⟩ := hregister r (hsame rfl)
      refine ⟨n, hx, hip, ?_, ?_, ?_⟩
      · rintro _ _ ⟨⟩ ⟨⟩
        exact htested
      · rintro _ _ _ ⟨⟩
      · rintro _ _ ⟨⟩
    | immediate v =>
      obtain ⟨n, hx, hip, htested⟩ := himmediate v
      refine ⟨n, hx, hip, ?_, ?_, ?_⟩
      · rintro _ _ _ ⟨⟩
      · rintro _ _ ⟨⟩ ⟨⟩
        exact htested
      · rintro _ _ ⟨⟩
    | memory q =>
      have hone : 2 ≤ 1 := hwell.oneMemory
      omega

/-- A bit test completes in memory that is not strict. It tests the bit that its offset picks, and no
other bit changes. -/
theorem run_bitTests (hd : s.disassemble = false) (hc : m.inCode = true) (hl : m.locate = .ok l)
    (hi : l.instruction = some (.bitTest op base offset)) (hm : m.memory.strict = false) :
    let past := { m with ip := l.next }
    let after := (m.run s true).machine
    (m.run s true).stop = .step ∧ after.ip = l.next ∧
    (base.width = .word ∨ base.width = .dword ∨ base.width = .qword) ∧
    (∀ p r, base = .memory p → offset = .register r → r.width = p.width ∧
      MemoryBitTested op (p.resolve past) (Arithmetic.number true p.width.bits (m.get r).toNat)
        m after) ∧
    (∀ p v, base = .memory p → offset = .immediate v →
      MemoryBitTested op (p.resolve past) (v.value.toNat % p.width.bits) m after) ∧
    ∀ r raw, base = .register r → offset.read past = .ok raw →
      RegisterBitTested op r (raw.toNat % r.width.bits) m after := by
  intro past after
  have hwell := (Located.at?_spans hl).wellFormed _ hi
  have hencoded := Located.encoded_of_at? hl hi
  obtain ⟨hwidth, hsame⟩ := hencoded.agree
  have hgeneral (r : Register) (hr : base = .register r) : r.bank = .general := by
    obtain ⟨w, hbase⟩ := hencoded.operands base (by simp [Instruction.named, Instruction.operands])
    rw [hr] at hbase
    exact hbase.1
  obtain ⟨n, hx, hip, hregister, himmediate, hplain⟩ := exists_bitTested hwell hsame hgeneral
    (show past.memory.strict = false from hm)
  obtain ⟨hstop, hmachine⟩ : (m.run s true).stop = .step ∧ after = n :=
    run_of_done hl hd hi hc (congrArg (Outcome.whole _) hx)
  rw [hmachine]
  refine ⟨hstop, hip, ?_, fun p r hp hr => ⟨?_, (hregister p r hp hr).moved⟩,
    fun p v hp hv => (himmediate p v hp hv).moved,
    fun r raw hr hraw => (hplain r raw hr hraw).moved⟩
  · rw [hwidth]
    unfold Modifiers.operandWidth
    split_ifs <;> simp_all
  · subst hp hr
    exact hsame rfl

/-- `BTC DWORD PTR [RAX], ECX` with a negative offset. -/
def bitBelow : Machine :=
  ((ofCode [0x0F, 0xBB, 0x08]).set (.accumulator .qword) 0x400010).set (.counter .dword) 0xFFFFFFF7

/-- `BTR EAX, 37` -/
def bitBeyond : Machine := (ofCode [0x0F, 0xBA, 0xF0, 0x25]).set (.accumulator .dword) 0xFF

theorem bitBelow_bitTests :
    ((bitBelow.run .execute true).machine.memory.bit 0x40000E 7 = true ∧
      (bitBelow.run .execute true).machine.flags.carry = some false ∧
      (bitBelow.run .execute true).machine.memory.bit 0x400011 7 = false) ∧
    (bitBeyond.run .execute true).machine.flags.carry = some true ∧
      ((bitBeyond.run .execute true).machine.get (.accumulator .dword)).toNat.testBit 5 = false ∧
      ((bitBeyond.run .execute true).machine.get (.accumulator .dword)).toNat.testBit 4 = true := by
  constructor
  · let p : Pointer :=
      { width := .dword, addressWidth := .qword, base := some (.general 0 .qword) }
    let r : Register := ⟨.general, 1, .dword, false⟩
    have hl : bitBelow.locate = .ok ⟨0x1000, {}, .twoByte, 0xBB,
        some (.bitTest .complement (.memory p) (.register r)), 0x1003⟩ := by rfl
    obtain ⟨-, -, -, hmemory, -⟩ := run_bitTests (s := .execute) rfl (by rfl) hl rfl rfl
    obtain ⟨-, htested⟩ := hmemory p r rfl rfl
    have hcarry := congrArg Flags.carry htested.flags
    refine ⟨(htested.bits 0x40000E 7 (by decide)).trans (by decide +kernel),
      hcarry.trans (by decide +kernel),
      (htested.bits 0x400011 7 (by decide)).trans (by decide +kernel)⟩
  · let r : Register := ⟨.general, 0, .dword, false⟩
    have hl : bitBeyond.locate = .ok ⟨0x1000, {}, .twoByte, 0xBA,
        some (.bitTest .reset (.register r) (.immediate ⟨37, .byte, false⟩)), 0x1004⟩ := by rfl
    obtain ⟨-, -, -, -, -, hregister⟩ := run_bitTests (s := .execute) rfl (by rfl) hl rfl rfl
    have htested := hregister r 37 rfl rfl
    have hcarry := congrArg Flags.carry htested.flags
    exact ⟨hcarry.trans (by decide +kernel),
      (htested.bits 5 (by decide)).trans (by decide +kernel),
      (htested.bits 4 (by decide)).trans (by decide +kernel)⟩

end Machine

end LongMode
