import LongMode.Proofs.Encoding.Addressing
import LongMode.Proofs.Encoding.Operands
import LongMode.Proofs.Run.Step
/-!
The operands in memory of an instruction that is carried out are where the table of addressing forms
says. An address relative to the instruction pointer counts from the end of the whole encoding, so
also from behind an immediate that comes after the displacement.
-/

namespace LongMode

open Addressing

namespace Machine

/-- The bytes from an address on, readable or not. -/
def bytesFrom (m : Machine) (a : UInt64) (k : Nat) : UInt8 := m.memory.peek (a + UInt64.ofNat k)

/-- Every operand in memory is the one that the bytes behind the opcode stand for. -/
theorem isMemory_of_locate {m : Machine} {l : Located} {i : Instruction} {p : Pointer}
    (hl : m.locate = .ok l) (hi : l.instruction = some i) (hp : .memory p ∈ i.named) :
    let code := m.bytesFrom (l.operandBytes m.memory.readByte)
    mode code ≠ 3 ∧ IsMemory code l.modifiers p.width (.memory p) := by
  intro code
  obtain ⟨w, v, form, d, next, hd, hdestination⟩ := (Located.encoded_of_at? hl hi).operands _ hp
  -- the bytes that were read are among those that are there
  have hextends : Fetch.Extends m.memory.readByte fun a => .ok (m.memory.peek a) :=
    fun a b hb => congrArg Except.ok (Memory.peek_of_readByte hb)
  have hd := (ModRm.decode_reads l.modifiers w v form).extend hextends hd
  have hstand : Decoder.Stand (fun a => .ok (m.memory.peek a))
      (l.operandBytes m.memory.readByte) code (size code) := fun _ _ => rfl
  obtain ⟨d', hd', himplements⟩ := decode_implements hstand l.modifiers w v form
  rw [hd] at hd'
  cases hd'
  have hplace := himplements.destination
  rw [hdestination] at hplace
  split_ifs at hplace with hm
  · obtain ⟨r, hr, -⟩ := hplace
    cases hr
  · refine ⟨hm, ?_⟩
    obtain ⟨q, hq, hw, hrest⟩ := hplace
    cases hq
    exact ⟨p, rfl, rfl, hrest⟩

/-- The bytes of every operand are taken as the table says and stand for the register or the place in
memory that it says. Where such a place is relative to the instruction pointer, a step that carries
the instruction out works at the address that counts from behind its last byte. -/
theorem addressing_table :
    (∀ (mods : Modifiers) (w v : Width) (form : Form) (code : Nat → UInt8) (f : Fetch) (a : UInt64),
      Decoder.Stand f a code (size code) →
      ∃ d, ModRm.decode mods w v form f a = .ok (d, a + UInt64.ofNat (size code)) ∧
        Implements code mods w v form d) ∧
    ∀ (m : Machine) (l : Located) (i : Instruction) (p : Pointer),
      m.locate = .ok l → l.instruction = some i → .memory p ∈ i.named →
      let code := m.bytesFrom (l.operandBytes m.memory.readByte)
      let past := { m with ip := m.ip + UInt64.ofNat (l.size m.memory.readByte) }
      mode code ≠ 3 ∧ ((p.resolve past).toNat : Int) = address code l.modifiers past ∧
      ∀ s n, s.disassemble = false → i.execute (frameOf s l) past = .done n →
        (m.step s).machine = n := by
  refine ⟨fun mods w v form code f a h => decode_implements h mods w v form,
    fun m l i p hl hi hp => ?_⟩
  obtain ⟨hm, q, hq, -, -, haddress⟩ := isMemory_of_locate hl hi hp
  cases hq
  refine ⟨hm, haddress _, fun s n hd hx => ?_⟩
  rw [← (Located.at?_spans hl).next] at hx
  rw [step_execute hl hd hi, hx]

/-- `MOV DWORD PTR [RIP-11], 1` with a REX byte that would extend a base. -/
def storeBehind : Machine :=
  ofCode [0x41, 0xC7, 0x05, 0xF5, 0xFF, 0xFF, 0xFF, 0x01, 0x00, 0x00, 0x00]

def behind : Pointer :=
  { width := .dword, addressWidth := .qword, displacement := -11, ipRelative := true }

/-- `[R13+R12*8-1]`, with the fourth bits of both registers in a REX byte. -/
def scaledBytes : Nat → UInt8
  | 0 => 0x44
  | 1 => 0xE5
  | _ => 0xFF

theorem addressing_table_instances :
    (storeBehind.locate.map (·.instruction) =
        .ok (some (.move (.memory behind) (.immediate ⟨1, .dword, false⟩))) ∧
      ((behind.resolve { storeBehind with ip := 0x100B }).toNat : Int) = 0x1000) ∧
    ∃ (d : ModRm) (p : Pointer),
      ModRm.decode { addressSize := true, rex := some { index := true, base := true } } .qword
        .qword {} (fun a => .ok (scaledBytes a.toNat)) 0 = .ok (d, 3) ∧ d.destination = .memory p ∧
      ∀ m : Machine, ((p.resolve m).toNat : Int) = (m.word 13 + m.word 12 * 8 - 1) % 2 ^ 32 := by
  constructor
  · have hl : storeBehind.locate = .ok ⟨0x1000, { rex := some { base := true } }, .oneByte, 0xC7,
        some (.move (.memory behind) (.immediate ⟨1, .dword, false⟩)), 0x100B⟩ := by rfl
    obtain ⟨-, haddress, -⟩ := addressing_table.2 _ _ _ _ hl rfl List.mem_cons_self
    exact ⟨by rw [hl]; rfl, haddress.trans (by decide +kernel)⟩
  · have hstand : Decoder.Stand (fun a => .ok (scaledBytes a.toNat)) 0 scaledBytes
        (size scaledBytes) := by
      intro i hi
      rw [show size scaledBytes = 3 from rfl] at hi
      interval_cases i <;> rfl
    obtain ⟨d, hd, himplements⟩ := addressing_table.1
      { addressSize := true, rex := some { index := true, base := true } } .qword .qword {} _ _ _
      hstand
    obtain ⟨p, hp, -, -, haddress⟩ := himplements.destination
    exact ⟨d, p, hd, hp, haddress⟩

end Machine

end LongMode
