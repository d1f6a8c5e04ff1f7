import LongMode.Proofs.Execute.Footprint
import LongMode.Proofs.Run.Addressing
import LongMode.Proofs.Run.BitTest
/-!
Under the address-size prefix addresses have 32 bits. Every word that an instruction reaches through
its operands starts below 2^32, except that a bit test with a register offset counts its elements
from the address of the operand on without cutting off again.
-/

namespace LongMode

def Element.Low (e : Element) : Prop := e.address.toNat < 2 ^ 32

theorem toNat_add_ofInt (a : UInt64) (x : Int) :
    ((a + .ofInt x).toNat : Int) = (a.toNat + x) % 2 ^ 64 := by
  have hx := Arithmetic.toNat_ofInt x
  rw [UInt64.toNat_add]
  omega

theorem Operand.elements_low {o : Operand} {m : Machine} {e : Element} (h : e ∈ o.elements m)
    (ho : ∀ p, o = .memory p → p.addressWidth = .dword) : e.Low := by
  cases o with
  | memory p =>
    obtain rfl := List.mem_singleton.1 h
    have hlt := p.addressWidth.mask_lt (p.sum m)
    rw [← p.resolve_eq, ho p rfl] at hlt
    exact hlt
  | register r | immediate i => cases h

theorem StringOp.places_low {op : StringOp} {m : Machine} {e : Element} (h : e ∈ op.places m)
    (hop : op.pointerWidth = .dword) : e.Low := by
  have hsource : (m.get op.source).toNat < op.pointerWidth.modulus := m.get_general_lt 6 _
  have hdestination : (m.get op.destination).toNat < op.pointerWidth.modulus :=
    m.get_general_lt 7 _
  rw [hop] at hsource hdestination
  unfold places at h
  generalize op.kind = kind at h
  cases kind <;> simp only [List.mem_cons, List.not_mem_nil, or_false] at h
  case store | scan => rw [h]; exact hdestination
  case load => rw [h]; exact hsource
  all_goals
    obtain rfl | rfl := h
    · exact hsource
    · exact hdestination

namespace Execute

/-- The element of a string of bits that the offset in `r` picks, counted from the operand on
without cutting anything off, starts at an address of 32 bits. -/
def PicksLow (p : Pointer) (r : Register) (m : Machine) : Prop :=
  let k := Arithmetic.number true p.width.bits (m.get r).toNat
  let a : Int := (p.resolve m).toNat + k / p.width.bits * p.width.bytes
  0 ≤ a ∧ a < 2 ^ 32

instance (p : Pointer) (r : Register) (m : Machine) : Decidable (PicksLow p r m) :=
  inferInstanceAs (Decidable (_ ∧ _))

variable {p : Pointer} {r : Register} {m : Machine} {e : Element}

theorem bitElements_of_register (hw : p.width.bytes ≤ 8) (hr : r.width = p.width) (m : Machine) :
    bitElements (.memory p) (.register r) m = [⟨p.resolve m + .ofInt
      (Arithmetic.number true p.width.bits (m.get r).toNat / p.width.bits * p.width.bytes),
      p.width⟩] := by
  unfold bitElements
  dsimp only [Operand.read]
  rw [Machine.place_of_register hw hr]
  rfl

/-- Only an offset in a register leads away from the operand. -/
theorem mem_bitElements {base offset : Operand} (h : e ∈ bitElements base offset m) :
    e ∈ base.elements m ∨ ∃ p r, base = .memory p ∧ offset = .register r := by
  unfold bitElements at h
  split at h
  · cases base with
    | register | immediate => exact .inl h
    | memory p =>
      cases offset with
      | register r => exact .inr ⟨p, r, rfl, rfl⟩
      | memory | immediate => exact .inl h
  · cases h

/-- The offset leads at most 2^60 bytes away, too few to come round to the first 2^32. -/
theorem bitElements_low_iff (hw : p.width.bytes ≤ 8) (hp : p.addressWidth = .dword)
    (hr : r.width = p.width) :
    (∀ e ∈ bitElements (.memory p) (.register r) m, e.Low) ↔ PicksLow p r m := by
  have hbase : (p.resolve m).toNat < 2 ^ 32 :=
    Operand.elements_low (o := .memory p) (m := m) (List.mem_singleton.2 rfl) fun q hq => by
      cases hq
      exact hp
  have hfits : Arithmetic.Fits true p.width.bits
      (Arithmetic.number true p.width.bits (m.get r).toNat) := by
    have hlt := r.fetch_lt m.registers
    rw [hr, Width.modulus_eq hw] at hlt
    exact Arithmetic.number_fits p.width.bits_pos hlt
  rw [bitElements_of_register hw hr, List.forall_mem_singleton]
  unfold PicksLow Element.Low
  dsimp only
  generalize Arithmetic.number true p.width.bits (m.get r).toNat = k at hfits ⊢
  have haway : -2 ^ 60 ≤ k / p.width.bits * p.width.bytes ∧
      k / p.width.bits * p.width.bytes < 2 ^ 60 := by
    generalize p.width = w at hw hfits ⊢
    cases w <;>
      simp only [Arithmetic.Fits, Width.bits, Width.bytes, if_true] at hfits hw ⊢ <;> omega
  have hsum := toNat_add_ofInt (p.resolve m) (k / p.width.bits * p.width.bytes)
  omega

end Execute

namespace Machine

variable {s : Settings} {m : Machine} {l : Located} {i : Instruction} {x : UInt64}

/-- Under the address-size prefix the only operands that lead beyond 32 bits are strings of bits. -/
theorem elements_low_iff (hl : m.locate = .ok l) (hi : l.instruction = some i)
    (ha : l.modifiers.addressSize = true) :
    let past := { m with ip := l.next }
    (∀ e ∈ i.elements past, e.Low) ↔
      ∀ op p r, i = .bitTest op (.memory p) (.register r) → Execute.PicksLow p r past := by
  intro past
  have hwidth : l.modifiers.addressWidth = .dword := if_pos ha
  have hagree := (Located.encoded_of_at? hl hi).agree
  have hnamed {o : Operand} (ho : o ∈ i.named) (p : Pointer) (hp : o = .memory p) :
      p.addressWidth = .dword := by
    subst hp
    obtain ⟨-, q, hq, -, hq', -⟩ := isMemory_of_locate hl hi ho
    cases hq
    exact hq'.trans hwidth
  have hbits {op : BitOp} {p : Pointer} {r : Register}
      (hop : i = .bitTest op (.memory p) (.register r)) :
      (∀ e ∈ Execute.bitElements (.memory p) (.register r) past, e.Low) ↔
        Execute.PicksLow p r past := by
    subst hop
    have hw : p.width.bytes ≤ 8 := ((Located.at?_spans hl).wellFormed _ hi).operand_width
      (o := .memory p) (by simp [Instruction.operands])
    exact Execute.bitElements_low_iff hw (hnamed List.mem_cons_self p rfl) (hagree.2 rfl)
  constructor
  · rintro h op p r rfl
    exact (hbits rfl).1 fun e he => h e (List.mem_append_right _ he)
  · intro h e he
    obtain ⟨o, ho, n, hn⟩ | ⟨op, n, rfl, hn⟩ | ⟨op, base, offset, rfl, hbit⟩ :=
      Instruction.mem_elements he
    · exact Operand.elements_low hn (hnamed ho)
    · exact StringOp.places_low hn (hagree.trans hwidth)
    · obtain hbase | ⟨p, r, rfl, rfl⟩ := Execute.mem_bitElements hbit
      · exact Operand.elements_low hbase (hnamed List.mem_cons_self)
      · exact (hbits rfl).2 (h op p r rfl) e hbit

/-- A byte that is not part of the encoding and that the instruction cannot touch is neither read
nor written by a run of one step. -/
theorem run_poke (hd : s.disassemble = false) (hl : m.locate = .ok l) (hi : l.instruction = some i)
    (hcode : ∀ k < l.size m.memory.readByte, m.ip + UInt64.ofNat k ≠ x)
    (helements : ∀ e ∈ i.elements { m with ip := l.next }, ¬ e.Covers x)
    (hstack : ∀ e ∈ i.stackElements { m with ip := l.next }, ¬ e.Covers x) (b : UInt8) :
    ((m.poke x b).run s true).machine = (m.run s true).machine.poke x b ∧
      ((m.poke x b).run s true).stop = (m.run s true).stop := by
  have hinside : (m.poke x b).inCode = m.inCode :=
    (Memory.Grows.writeByte m.memory x b).inCode m.ip
  have hl' : (m.poke x b).locate = .ok l := by
    change Located.at? (m.memory.writeByte x b).readByte m.ip = .ok l
    refine (Located.at?_spans hl).congr _ fun k hk => ?_
    rw [hi] at hk
    rw [Memory.readByte_writeByte, if_neg (hcode k hk)]
  have hx := i.execute_poke (frameOf s l) { m with ip := l.next } helements hstack b
  have hstep : ((m.poke x b).step s).machine = (m.step s).machine.poke x b ∧
      ((m.poke x b).step s).event = (m.step s).event := by
    change i.execute (frameOf s l) { m.poke x b with ip := l.next } = _ at hx
    rw [step_execute hl hd hi, step_execute hl' hd hi, hx]
    cases i.execute (frameOf s l) { m with ip := l.next } with
    | done n => exact ⟨rfl, rfl⟩
    | halted h n => exact ⟨rfl, rfl⟩
  rw [run_single, run_single, hinside, hstep.1, hstep.2]
  split_ifs
  · exact ⟨rfl, rfl⟩
  · exact ⟨rfl, rfl⟩

/-- Under the address-size prefix all words that the instruction can touch through its operands
start below 2^32, unless it is a bit test whose offset leads elsewhere. Beside these words, its own
bytes and the stack no byte is read or written. -/
theorem run_confined_iff (hl : m.locate = .ok l) (hi : l.instruction = some i)
    (ha : l.modifiers.addressSize = true) :
    let past := { m with ip := l.next }
    ((∀ e ∈ i.elements past, e.Low) ↔
      ∀ op p r, i = .bitTest op (.memory p) (.register r) → Execute.PicksLow p r past) ∧
    ∀ s x, s.disassemble = false → (∀ k < l.size m.memory.readByte, m.ip + UInt64.ofNat k ≠ x) →
      (∀ e ∈ i.elements past, ¬ e.Covers x) → (∀ e ∈ i.stackElements past, ¬ e.Covers x) →
      ∀ b, ((m.poke x b).run s true).machine = (m.run s true).machine.poke x b ∧
        ((m.poke x b).run s true).stop = (m.run s true).stop :=
  ⟨elements_low_iff hl hi ha, fun _ _ hd hcode helements hstack =>
    run_poke hd hl hi hcode helements hstack⟩

/-- `BTS DWORD PTR [EAX], ECX` with an offset of minus one. -/
def bitBeforeZero : Machine :=
  (ofCode [0x67, 0x0F, 0xAB, 0x08]).set (.counter .dword) 0xFFFFFFFF

/-- `REP STOSB` from the last address of 32 bits on. -/
def storeRound : Machine :=
  ((ofCode [0x67, 0xF3, 0xAA]).set (.counter .dword) 2).set (.destinationIndex .dword) 0xFFFFFFFF

/-- The bit test sets the topmost bit of memory, and the byte that has the same address in 32 bits
is nothing to it; the other instruction goes on at the bottom. -/
theorem bitBeforeZero_beyond :
    ((∃ i l, bitBeforeZero.locate = .ok l ∧ l.instruction = some i ∧
        ¬ ∀ e ∈ i.elements { bitBeforeZero with ip := l.next }, e.Low) ∧
      (bitBeforeZero.run .execute true).machine.memory.peek 0xFFFFFFFFFFFFFFFF = 0x80 ∧
      ∀ b, ((bitBeforeZero.poke 0xFFFFFFFF b).run .execute true).machine =
        (bitBeforeZero.run .execute true).machine.poke 0xFFFFFFFF b) ∧
    ∃ i l, storeRound.locate = .ok l ∧ l.instruction = some i ∧
      ∀ e ∈ i.elements { storeRound with ip := l.next }, e.Low := by
  constructor
  · let p : Pointer :=
      { width := .dword, addressWidth := .dword, base := some (.general 0 .dword) }
    let r : Register := ⟨.general, 1, .dword, false⟩
    have hl : bitBeforeZero.locate = .ok ⟨0x1000, { addressSize := true }, .twoByte, 0xAB,
        some (.bitTest .set (.memory p) (.register r)), 0x1004⟩ := by rfl
    obtain ⟨hiff, hrest⟩ := run_confined_iff hl rfl rfl
    refine ⟨⟨_, _, hl, rfl, fun h => ?_⟩, by decide +kernel, fun b => ?_⟩
    · exact absurd (hiff.1 h _ p r rfl) (by decide +kernel)
    · exact (hrest .execute 0xFFFFFFFF rfl (by decide +kernel) (by decide +kernel)
        (by decide +kernel) b).1
  · have hl : storeRound.locate = .ok ⟨0x1000,
        { addressSize := true, repetition := some .whileEqual }, .oneByte, 0xAA,
        some (.string ⟨.store, .byte, .dword, some .whileEqual, none⟩), 0x1003⟩ := by rfl
    obtain ⟨hiff, -⟩ := run_confined_iff hl rfl rfl
    refine ⟨_, _, hl, rfl, hiff.2 fun op p r h => ?_⟩
    cases h

end Machine

end LongMode
