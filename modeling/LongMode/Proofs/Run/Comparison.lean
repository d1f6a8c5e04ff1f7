import LongMode.Proofs.Arithmetic.Comparison
import LongMode.Proofs.Encoding.Operands
import LongMode.Proofs.Execute.Pair
import LongMode.Proofs.Guarded.Execute
import LongMode.Proofs.Run.Step
/-!
A comparison, and the step behind it that depends on a condition. The conditions decide how the two
numbers relate, whatever the flags were before; so a jump takes place, a move brings the new value,
and a byte is set exactly where the relation holds.
-/

namespace LongMode

open Arithmetic

namespace Execute

variable {m : Machine} {frame : Frame} {cond : Condition} {dst src target : Operand} {a b v : UInt64}

theorem compare_of_read (ha : read dst m = .ok a) (hb : read src m = .ok b) :
    binary .cmp dst src m = .ok (m.define (sub a b false dst.width).2) := by
  unfold binary
  rw [ha]
  dsimp only [ok_bind]
  rw [hb]
  rfl

theorem jumpIf_of_read (h : read target m = .ok v) : jumpIf frame cond target m =
    .ok (if holds frame cond m then jump frame v m else m) := by
  unfold jumpIf
  rw [h]
  rfl

/-- A move to a register writes the register in either case: the new value, or its own. -/
theorem moveIf_of_read {r : Register} (hr : r.bank = .general) (h : read src m = .ok v) :
    moveIf frame cond (.register r) src m =
      .ok (m.set r (if holds frame cond m then v else m.get r)) := by
  unfold moveIf
  rw [h]
  dsimp only [ok_bind]
  split_ifs with hholds hdword
  · rfl
  · rfl
  · have hw : r.width ≠ .dword := by
      rintro hw
      simp [Operand.width, hw] at hdword
    rw [Machine.set, Machine.get, Register.set_fetch hr hw]
    rfl

end Execute

namespace Machine

variable {s t : Settings} {m : Machine} {l k : Located} {dst src : Operand} {a b : UInt64}

/-- A comparison completes where its operands can be read and changes nothing but flags. -/
theorem run_compare (hd : s.disassemble = false) (hc : m.inCode = true) (hl : m.locate = .ok l)
    (hi : l.instruction = some (.binary .cmp dst src))
    (ha : dst.read { m with ip := l.next } = .ok a)
    (hb : src.read { m with ip := l.next } = .ok b) :
    (m.run s true).stop = .step ∧ (m.run s true).machine =
      { m with ip := l.next, flags := m.flags.overlap (sub a b false dst.width).2 } :=
  run_of_done hl hd hi hc (congrArg (Outcome.whole _)
    (Execute.compare_of_read (Execute.read_of_ok ha) (Execute.read_of_ok hb)))

/-- The step behind a comparison of `a` and `b` acts on the condition as the relation says. -/
structure Acts (w : Width) (a b : UInt64) (t : Settings) (c : Condition) (k : Located)
    (after : Machine) : Prop where
  jump : ∀ target d, k.instruction = some (.jump c target) →
    target.read { after with ip := k.next } = .ok d → t.noJump = false →
    (after.run t true).stop = .step ∧ (after.run t true).machine =
      { after with ip := if c.Compares w a b then d else k.next }
  moveIf : ∀ dst src v, k.instruction = some (.moveIf c dst src) →
    src.read { after with ip := k.next } = .ok v →
    ∃ r : Register, dst = .register r ∧ src.width = r.width ∧ (after.run t true).stop = .step ∧
      (after.run t true).machine = { after with ip := k.next }.set r
        (if c.Compares w a b then v else after.get r)
  setIf : ∀ dst, k.instruction = some (.setIf c dst) →
    (after.run t true).stop = .step ∧ dst.write { after with ip := k.next }
      (if c.Compares w a b then 1 else 0) = .ok (after.run t true).machine

theorem acts_of_holds {w : Width} {c : Condition} {after : Machine}
    (hholds : ∀ counter, c.holds after.flags counter = decide (c.Compares w a b))
    (hd : t.disassemble = false) (hc : after.inCode = true) (hk : after.locate = .ok k) :
    Acts w a b t c k after := by
  have hcond : Execute.holds (frameOf t k) c { after with ip := k.next } =
      decide (c.Compares w a b) := hholds _
  constructor
  case jump =>
    intro target d hi hread hjump
    refine run_of_done hk hd hi hc (congrArg (Outcome.whole _)
      ((Execute.jumpIf_of_read (Execute.read_of_ok hread)).trans (congrArg Except.ok ?_)))
    rw [hcond]
    by_cases h : c.Compares w a b
    · simp [h, Execute.jump, frameOf, hjump]
    · simp [h]
  case moveIf =>
    intro dst src v hi hread
    obtain ⟨r, rfl, hr, hwidth⟩ := (Located.encoded_of_at? hk hi).agree
    have hx : Execute.moveIf (frameOf t k) c (.register r) src { after with ip := k.next } = _ :=
      Execute.moveIf_of_read hr (Execute.read_of_ok hread)
    rw [hcond] at hx
    obtain ⟨hstop, hmachine⟩ := run_of_done hk hd hi hc (congrArg (Outcome.whole _) hx)
    refine ⟨r, rfl, hwidth, hstop, hmachine.trans ?_⟩
    simp only [decide_eq_true_eq]
    rfl
  case setIf =>
    intro dst hi
    obtain ⟨n, hn⟩ : ∃ n, dst.write { after with ip := k.next }
        (if c.Compares w a b then 1 else 0) = .ok n := by
      have hplace := ((Located.at?_spans hk).wellFormed _ hi).written dst List.mem_cons_self
      cases dst with
      | register r | memory p => exact ⟨_, rfl⟩
      | immediate i => cases hplace
    have hx : Execute.setIf (frameOf t k) c dst { after with ip := k.next } = .ok n := by
      unfold Execute.setIf Execute.write
      rw [hcond]
      simp only [decide_eq_true_eq]
      rw [hn]
      rfl
    obtain ⟨hstop, hmachine⟩ := run_of_done hk hd hi hc (congrArg (Outcome.whole _) hx)
    exact ⟨hstop, hn.trans (congrArg Except.ok hmachine.symm)⟩

/-- After a comparison every condition decides how the two numbers relate, and so does every
instruction that depends on one. -/
theorem run_compares (hd : s.disassemble = false) (hc : m.inCode = true) (hl : m.locate = .ok l)
    (hi : l.instruction = some (.binary .cmp dst src))
    (ha : dst.read { m with ip := l.next } = .ok a)
    (hb : src.read { m with ip := l.next } = .ok b) :
    let after := (m.run s true).machine
    ((m.run s true).stop = .step ∧ after = { m with ip := l.next, flags := after.flags }) ∧
    src.width = dst.width ∧
    ∀ c, c ≠ .counterZero →
      (∀ counter, c.holds after.flags counter = decide (c.Compares dst.width a b)) ∧
      ∀ t k, t.disassemble = false → after.inCode = true → after.locate = .ok k →
        Acts dst.width a b t c k after := by
  intro after
  obtain ⟨hstop, hmachine⟩ := run_compare hd hc hl hi ha hb
  have hsame : src.width = dst.width := (Located.encoded_of_at? hl hi).agree
  have hw : dst.width.bytes ≤ 8 :=
    ((Located.at?_spans hl).wellFormed _ hi).operand_width (by simp [Instruction.operands])
  have hnamed := Located.named_of_at? hl hi
  have hlta : a.toNat < dst.width.modulus :=
    Execute.read_lt (hnamed dst (by simp [Instruction.named, Instruction.operands]))
      (Execute.read_of_ok ha)
  have hltb : b.toNat < dst.width.modulus := by
    rw [← hsame]
    exact Execute.read_lt (hnamed src (by simp [Instruction.named, Instruction.operands]))
      (Execute.read_of_ok hb)
  have hcompared : Flags.Compared dst.width a b after.flags := by
    have h := compared_sub hw hlta hltb m.flags
    rwa [show after.flags = _ from congrArg Machine.flags hmachine]
  rw [Width.modulus_eq hw] at hlta hltb
  refine ⟨⟨hstop, ?_⟩, hsame, fun c hcounter => ?_⟩
  · rw [show after = _ from hmachine]
  · have hholds := hcompared.holds hlta hltb hcounter
    exact ⟨hholds, fun t k hd' hc' hk => acts_of_holds hholds hd' hc' hk⟩

/-- `CMP AL, CL` with the least signed byte and one, and `JL` behind it. -/
def leastByte : Machine :=
  ((ofCode [0x38, 0xC8, 0x7C, 0x02]).set (.accumulator .byte) 0x80).set (.counter .byte) 1

theorem leastByte_compares :
    let after := (leastByte.run .execute true).machine
    Condition.above.holds after.flags 0 = true ∧ Condition.less.holds after.flags 0 = true ∧
      Condition.overflow.holds after.flags 0 = true ∧ Condition.sign.holds after.flags 0 = false ∧
      (after.run .execute true).machine.ip = 0x1006 := by
  have hl : leastByte.locate = .ok ⟨0x1000, {}, .oneByte, 0x38,
      some (.binary .cmp (.register ⟨.general, 0, .byte, false⟩)
        (.register ⟨.general, 1, .byte, false⟩)), 0x1002⟩ := by rfl
  have hk : (leastByte.run .execute true).machine.locate = .ok ⟨0x1002, {}, .oneByte, 0x7C,
      some (.jump .less (.immediate ⟨0x1006, .qword, true⟩)), 0x1004⟩ := by rfl
  obtain ⟨-, -, hcompares⟩ := run_compares (s := .execute) (a := 0x80) (b := 1) rfl (by rfl) hl rfl
    (by rfl) (by rfl)
  obtain ⟨-, hjump⟩ := (((hcompares .less nofun).2 .execute _ rfl (by rfl) hk).jump _ 0x1006 rfl rfl
    rfl)
  refine ⟨((hcompares .above nofun).1 0).trans (by decide +kernel),
    ((hcompares .less nofun).1 0).trans (by decide +kernel),
    ((hcompares .overflow nofun).1 0).trans (by decide +kernel),
    ((hcompares .sign nofun).1 0).trans (by decide +kernel), ?_⟩
  rw [hjump]
  decide +kernel

end Machine

end LongMode
