import LongMode.Proofs.Arithmetic.Total
import LongMode.Proofs.Execute.Pair
import LongMode.Proofs.Execute.Target
import LongMode.Proofs.Guarded.Execute
/-!
Sums and differences are those of numbers, at every width and with a carry or a borrow taken in. The
operations on one operand are such sums: counting up and down add and take away one but leave the
carry as it is, and a negation takes its operand away from zero.
-/

namespace LongMode

open Arithmetic

theorem Arithmetic.totalled_lt {w : Width} (hw : w.bytes ≤ 8) (subtract : Bool) (a b : UInt64)
    (c : Bool) : (totalled subtract w a b c).1.toNat < w.modulus := by
  have hlt : kept subtract w.bits (a.toNat % 2 ^ w.bits) (b.toNat % 2 ^ w.bits) c < 2 ^ w.bits :=
    kept_lt
  have hsize : 2 ^ w.bits ≤ UInt64.size := Nat.pow_le_pow_right (by decide) (Width.bits_le hw)
  rw [totalled, Width.modulus_eq hw]
  dsimp only
  rwa [UInt64.toNat_ofNat_of_lt' (hlt.trans_le hsize)]

namespace Machine

variable {s : Settings} {m : Machine} {l : Located} {target source : Operand} {v a b r : UInt64}
  {f : Flags}

theorem run_binary {op : BinaryOp} (hd : s.disassemble = false) (hc : m.inCode = true)
    (hl : m.locate = .ok l) (hi : l.instruction = some (.binary op target source)) (hop : op ≠ .cmp)
    (ha : target.read { m with ip := l.next } = .ok a)
    (hb : source.read { m with ip := l.next } = .ok b)
    (hx : Execute.binaryResult op a b (isOn m.flags.carry) target.width = (r, f))
    (hr : r.toNat < target.width.modulus) : m.Puts s l.next target r (m.flags.overlap f) := by
  have hkeeps : target.Keeps := Located.keeps_of_at? hl hi
    (by simp [Instruction.written]) (by simp [Instruction.named, Instruction.operands])
  refine run_puts hd hc hl hi hkeeps hr (congrArg (Outcome.whole _) ?_)
  unfold Execute.binary
  rw [Execute.read_of_ok ha, Execute.read_of_ok hb]
  simp only [ok_bind, if_neg hop, hx]
  rfl

theorem run_unary {op : UnaryOp} (hd : s.disassemble = false) (hc : m.inCode = true)
    (hl : m.locate = .ok l) (hi : l.instruction = some (.unary op target))
    (hv : target.read { m with ip := l.next } = .ok v)
    (hx : Execute.unaryResult op v target.width = (r, f)) (hr : r.toNat < target.width.modulus) :
    m.Puts s l.next target r (m.flags.overlap f) := by
  have hkeeps : target.Keeps := Located.keeps_of_at? hl hi
    (by simp [Instruction.written]) (by simp [Instruction.named, Instruction.operands])
  refine run_puts hd hc hl hi hkeeps hr (congrArg (Outcome.whole _) ?_)
  unfold Execute.unary
  rw [Execute.read_of_ok hv]
  simp only [ok_bind, hx]
  rfl

/-- The result and the six flags of every sum and difference are those of the numbers; so are those
of the instructions that count up, count down and negate. -/
theorem sums_exact :
    (∀ w : Width, w.bytes ≤ 8 → ∀ a b c,
      add a b c w = totalled false w a b c ∧ sub a b c w = totalled true w a b c) ∧
    ∀ (s : Settings) (m : Machine) (l : Located) (target : Operand) (v : UInt64),
      s.disassemble = false → m.inCode = true → m.locate = .ok l →
      target.read { m with ip := l.next } = .ok v →
      (l.instruction = some (.unary .inc target) →
        let t := totalled false target.width v 1 false
        m.Puts s l.next target t.1 { m.flags.overlap t.2 with carry := m.flags.carry }) ∧
      (l.instruction = some (.unary .dec target) →
        let t := totalled true target.width v 1 false
        m.Puts s l.next target t.1 { m.flags.overlap t.2 with carry := m.flags.carry }) ∧
      (l.instruction = some (.unary .neg target) →
        let t := totalled true target.width 0 v false
        m.Puts s l.next target t.1 (m.flags.overlap t.2)) := by
  refine ⟨fun w hw a b c => ⟨add_eq_totalled hw a b c, sub_eq_totalled hw a b c⟩,
    fun s m l target v hd hc hl hv => ?_⟩
  have hwidth {op : UnaryOp} (hi : l.instruction = some (.unary op target)) :
      target.width.bytes ≤ 8 :=
    Located.operand_width_of_at? hl hi (by simp [Instruction.operands])
  refine ⟨fun hi => ?_, fun hi => ?_, fun hi => ?_⟩
  · have hw := hwidth hi
    have hx : Execute.unaryResult .inc v target.width = ((totalled false target.width v 1 false).1,
        { (totalled false target.width v 1 false).2 with carry := none }) := by
      rw [Execute.unaryResult, add_eq_totalled hw]
    exact run_unary hd hc hl hi hv hx (totalled_lt hw false v 1 false)
  · have hw := hwidth hi
    have hx : Execute.unaryResult .dec v target.width = ((totalled true target.width v 1 false).1,
        { (totalled true target.width v 1 false).2 with carry := none }) := by
      rw [Execute.unaryResult, sub_eq_totalled hw]
    exact run_unary hd hc hl hi hv hx (totalled_lt hw true v 1 false)
  · have hw := hwidth hi
    have hx : Execute.unaryResult .neg v target.width = totalled true target.width 0 v false := by
      rw [Execute.unaryResult, sub_eq_totalled hw]
    exact run_unary hd hc hl hi hv hx (totalled_lt hw true 0 v false)

/-- `INC AL` at the largest signed byte, with the carry on. -/
def largestByte : Machine :=
  ((ofCode [0xFE, 0xC0]).set (.accumulator .byte) 0x7F).define { carry := some true }

theorem largestByte_overflows :
    (largestByte.run .execute true).stop = .step ∧
      (largestByte.run .execute true).machine.get (.accumulator .byte) = 0x80 ∧
      (largestByte.run .execute true).machine.flags =
        { carry := some true, auxiliary := some true, overflow := some true, zero := some false
          sign := some true, parity := some false, direction := some false
          interrupt := some false } ∧
      add 0xFF 0 true .byte =
        (0, { carry := some true, auxiliary := some true, overflow := some false
              zero := some true, sign := some false, parity := some true }) := by
  have hl : largestByte.locate = .ok ⟨0x1000, {}, .oneByte, 0xFE,
      some (.unary .inc (.register ⟨.general, 0, .byte, false⟩)), 0x1002⟩ := by rfl
  have hputs := (sums_exact.2 .execute largestByte _ _ 0x7F rfl (by rfl) hl (by rfl)).1 rfl
  refine ⟨hputs.completes, ?_, ?_, ?_⟩
  · have h := Except.ok.inj hputs.kept
    rw [show (largestByte.run .execute true).machine.get (.accumulator .byte) = _ from h]
    decide +kernel
  · rw [← Except.ok.inj hputs.written]
    decide +kernel
  · rw [(sums_exact.1 .byte (by decide) 0xFF 0 true).1]
    decide +kernel

end Machine

end LongMode
