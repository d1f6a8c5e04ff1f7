import LongMode.Encoding.Located
import LongMode.Proofs.Encoding.Reads
/-!
What every decoder of the opcode maps gives. An instruction that is decoded stores only to registers
and memory, has at most one operand in memory, exchanges with registers only, and names no width
beyond that of a word. None of the decoders can be misused, and none takes more than ten bytes
behind the opcode.
-/

namespace LongMode

def Operand.isPlace : Operand → Bool
  | .immediate _ => false
  | _ => true

@[simp] theorem Operand.isMemory_immediate (i : Immediate) : (immediate i).isMemory = false := rfl

@[simp] theorem Operand.isMemory_register (r : Register) : (register r).isMemory = false := rfl

@[simp] theorem Operand.isMemory_memory (p : Pointer) : (memory p).isMemory = true := rfl

namespace Instruction

def operands : Instruction → List Operand
  | binary _ dst src | test dst src | move dst src | moveExtend _ dst src | exchangeAdd dst src
  | moveIf _ dst src | bitScan _ dst src => [dst, src]
  | unary _ target | multiply _ target | divide _ target | push target | pop target
  | setIf _ target | jump _ target | call target => [target]
  | multiplyInto dst src factor => dst :: src :: factor.toList
  | loadAddress dst _ => [dst]
  | exchange a b => [a, b]
  | swapBytes target => [.register target]
  | shift _ target count => [target, count]
  | bitTest _ base offset => [base, offset]
  | nop operand => operand.toList
  | widenAccumulator _ | spreadSign _ | pushFlags _ | popFlags _ | leave _ | ret _ | flag _
  | loadFlags | storeFlags | string _ => []

/-- The operands that the instruction may store to. -/
def written : Instruction → List Operand
  | binary _ dst _ | multiplyInto dst _ _ | move dst _ | moveExtend _ dst _ | loadAddress dst _
  | moveIf _ dst _ | setIf _ dst | bitScan _ dst _ => [dst]
  | unary _ target | pop target | shift _ target _ | bitTest _ target _ => [target]
  | exchange a b | exchangeAdd a b => [a, b]
  | swapBytes target => [.register target]
  | _ => []

def widths (i : Instruction) : List Width :=
  i.operands.map Operand.width ++ match i with
    | widenAccumulator w | spreadSign w | pushFlags w | popFlags w | leave w => [w]
    | string op => [op.width, op.pointerWidth]
    | _ => []

/-- The operands that are given the old value of another one. -/
def exchanged : Instruction → List Operand
  | exchange _ b | exchangeAdd _ b => [b]
  | _ => []

theorem exchanged_eq_nil {i : Instruction} (h : i.operands.length ≤ 1) : i.exchanged = [] := by
  cases i with
  | exchange a b => simp [operands] at h
  | exchangeAdd dst src => simp [operands] at h
  | _ => rfl

/-- Nothing is stored to that is not in the encoding. -/
theorem written_subset (i : Instruction) : i.written ⊆ i.operands := by
  cases i <;> simp [written, operands]

structure WellFormed (i : Instruction) : Prop where
  written : ∀ o ∈ i.written, o.isPlace
  exchanged : ∀ o ∈ i.exchanged, o.isRegister
  oneMemory : (i.operands.filter Operand.isMemory).length ≤ 1
  widths : ∀ w ∈ i.widths, w.bytes ≤ 8

end Instruction

theorem Modifiers.operandWidth_bytes_le (mods : Modifiers) (byteSized : Bool) :
    (mods.operandWidth byteSized).bytes ≤ 8 := by
  unfold Modifiers.operandWidth
  split_ifs <;> decide

theorem Modifiers.stackWidth_bytes_le (mods : Modifiers) : mods.stackWidth.bytes ≤ 8 := by
  unfold Modifiers.stackWidth
  split_ifs <;> decide

theorem Modifiers.addressWidth_bytes_le (mods : Modifiers) : mods.addressWidth.bytes ≤ 8 := by
  unfold Modifiers.addressWidth
  split_ifs <;> decide

namespace Decoder

def Encodes (o : Option Instruction) : Prop := ∀ i ∈ o, i.WellFormed

/-- Where there is no instruction, the byte behind the encoding may have been looked at. -/
def peeked (o : Option Instruction) : Nat := if o.isNone then 1 else 0

theorem get_reads : (get : Decoder UInt64).Reads 0 0 exact fun _ => True where
  ok h := by
    cases h
    exact ⟨trivial, 0, le_rfl, le_rfl, by simp, fun _ _ => rfl⟩
  taken h := by
    cases h
    exact ⟨0, by simp, .zero _ _⟩
  error h := by cases h
  extend _ h := h

end Decoder

open Decoder

namespace Immediate

theorem storedWidth_bytes_le (w : Width) (form : Form) : (storedWidth w form).bytes ≤ 8 := by
  unfold storedWidth
  cases form.shortImmediate <;> cases form.wideImmediate <;> cases w <;> decide

theorem storedWidth_bytes_le_four (w : Width) {form : Form} (h : form.wideImmediate = false) :
    (storedWidth w form).bytes ≤ 4 := by
  unfold storedWidth
  rw [h]
  cases form.shortImmediate <;> cases w <;> decide

theorem decode_reads {w : Width} {form : Form} {hi : Nat} (hw : w.bytes ≤ 8)
    (hle : (storedWidth w form).bytes ≤ hi) :
    (decode w form).Reads 0 hi exact fun i => i.width.bytes ≤ 8 := by
  unfold decode
  refine (fetchWord_reads _).bind hle fun raw _ => ?_
  dsimp only
  cases form.relative with
  | true => exact get_reads.bind (Nat.zero_le _) fun next _ => Reads.pure (le_refl 8) (by omega)
  | false => exact Reads.pure hw (by omega)

end Immediate

namespace Sib

theorem decode_reads (mods : Modifiers) {mode hi : Nat} (h0 : mode = 0 → 5 ≤ hi) (h1 : 1 ≤ hi) :
    (decode mods mode).Reads 1 hi exact fun _ => True := by
  unfold decode
  refine fetch_reads.bind h1 fun byte _ => ?_
  dsimp only
  by_cases h : byte.toNat % 8 = 5 ∧ mode = 0
  · rw [if_pos h]
    have hroom : 4 ≤ hi - 1 := by have := h0 h.2; omega
    exact (fetchWord_reads 4).bind hroom fun raw _ => Reads.pure trivial (Nat.zero_le _)
  · rw [if_neg h]
    exact Reads.pure trivial (Nat.zero_le _)

end Sib

namespace ModRm

/-- The operands of a ModRM byte: the one of the operand field has the width `w`, the other, if it
is one, is a register of width `v`. -/
structure Fits (w v : Width) (extended : Bool) (m : ModRm) : Prop where
  place : m.destination.isPlace
  width : m.destination.width = w
  source : extended = false →
    ∃ r : Register, m.source = some (.register r) ∧ r.width = v

theorem decodeBase_reads (mods : Modifiers) {mode hi : Nat} (field : Nat) (p : Pointer)
    (h0 : mode = 0 → 5 ≤ hi) (h1 : 1 ≤ hi) :
    (decodeBase mods mode field p).Reads 0 hi exact fun q => q.width = p.width := by
  unfold decodeBase
  split_ifs with h4 h5
  · exact (Sib.decode_reads mods h0 h1).bind le_rfl fun _ _ => Reads.pure rfl (by omega)
  · exact (fetchWord_reads 4).bind (by have := h0 h5.2; omega) fun _ _ => Reads.pure rfl (by omega)
  · exact Reads.pure rfl (by omega)

theorem decodeDisplacement_reads {mode hi : Nat} (p : Pointer) (h : mode ≠ 0 → 4 ≤ hi) :
    (decodeDisplacement mode p).Reads 0 hi exact fun q => q.width = p.width := by
  unfold decodeDisplacement
  split_ifs with h1 h2
  · exact (fetchWord_reads 1).bind (by omega) fun _ _ => Reads.pure rfl (by omega)
  · exact (fetchWord_reads 4).bind (by omega) fun _ _ => Reads.pure rfl (by omega)
  · exact Reads.pure rfl (by omega)

theorem decodeOperand_reads (mods : Modifiers) (mode field : Nat) (w : Width) :
    (decodeOperand mods mode field w).Reads 0 5 exact fun o => o.isPlace ∧ o.width = w := by
  unfold decodeOperand
  split_ifs with h3
  · exact Reads.pure ⟨rfl, rfl⟩ (by omega)
  · -- without a displacement of its own, the mode leaves room for the one of a SIB byte
    let blank : Pointer :=
      { width := w, addressWidth := mods.addressWidth, segment := mods.segment }
    have hb : (decodeBase mods mode field blank).Reads 0 (if mode = 0 then 5 else 1) exact
        fun q => q.width = w :=
      decodeBase_reads mods field blank (fun h => by rw [if_pos h]) (by split_ifs <;> omega)
    refine hb.bind (by split_ifs <;> omega) fun q hq => ?_
    refine (decodeDisplacement_reads q fun h => by rw [if_neg h]).bind le_rfl fun r hr => ?_
    exact Reads.pure ⟨rfl, hr.trans hq⟩ (by omega)

theorem decode_reads (mods : Modifiers) (w v : Width) (form : Form) :
    (decode mods w v form).Reads 1 6 exact (Fits w v form.extended) := by
  unfold decode
  refine fetch_reads.bind (by omega) fun byte _ => ?_
  refine (decodeOperand_reads mods _ _ w).bind le_rfl fun o ho => Reads.pure ?_ (by omega)
  exact ⟨ho.1, ho.2, fun hx => ⟨_, by simp only [hx]; rfl, rfl⟩⟩

end ModRm

end LongMode
