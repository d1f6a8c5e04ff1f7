import LongMode.Proofs.Arithmetic.Shift
import LongMode.Proofs.Execute.Flags
import LongMode.Proofs.Execute.Pair
import LongMode.Proofs.Execute.Target
import LongMode.Proofs.Guarded.Execute
/-!
A step that shifts or rotates. Its target is left with the shifted vector of bits, at every count,
and a count of nothing changes nothing. A rotation through the carry is one of the target with the
carry on top of it, and the rotation in the other direction takes it back.
-/

namespace LongMode

open Arithmetic

theorem Execute.shift_of_read {m : Machine} {op : ShiftOp} {target count : Operand} {v n : UInt64}
    (hv : target.read m = .ok v) (hn : count.read m = .ok n) :
    Execute.shift op target count m =
      match Arithmetic.shift op v n target.width (isOn m.flags.carry) with
      | none => .ok m
      | some (r, f) => Execute.write target r m >>= fun k => .ok (k.define f) := by
  unfold Execute.shift
  rw [read_of_ok hv, read_of_ok hn]
  rfl

namespace Machine

variable {s : Settings} {m : Machine} {l : Located} {op : ShiftOp} {target count : Operand}
  {v n : UInt64}

theorem run_shift (hd : s.disassemble = false) (hc : m.inCode = true) (hl : m.locate = .ok l)
    (hi : l.instruction = some (.shift op target count))
    (hv : target.read { m with ip := l.next } = .ok v)
    (hn : count.read { m with ip := l.next } = .ok n) :
    let w := target.width
    let c := isOn m.flags.carry
    (countAt w n = 0 → (m.run s true).stop = .step ∧
      (m.run s true).machine = { m with ip := l.next }) ∧
    (countAt w n ≠ 0 → m.Puts s l.next target (w.ofVector (op.moved (w.vector v) (countAt w n) c).1)
      (m.flags.overlap (op.flags (w.vector v) (countAt w n) c))) := by
  intro w c
  have hw : w.bytes ≤ 8 :=
    Located.operand_width_of_at? hl hi (o := target) (by simp [Instruction.operands])
  have hshift := shift_ofVector hw op v n c
  have hx : Execute.shift op target count { m with ip := l.next } = _ :=
    Execute.shift_of_read hv hn
  constructor
  · intro h0
    rw [if_pos h0] at hshift
    rw [hshift] at hx
    exact run_of_done hl hd hi hc (congrArg (Outcome.whole _) hx)
  · intro h0
    have hkeeps : target.Keeps := Located.keeps_of_at? hl hi
      (by simp [Instruction.written]) (by simp [Instruction.named, Instruction.operands])
    rw [if_neg h0] at hshift
    rw [hshift] at hx
    exact run_puts hd hc hl hi hkeeps (Width.ofVector_lt hw _) (congrArg (Outcome.whole _) hx)

/-- Shifts and rotates are those of bit vectors, at every count, and no step of the calculation
shifts a word by its whole size or more. -/
theorem shifts_exact :
    (∀ w : Width, w.bytes ≤ 8 → ∀ (op : ShiftOp) (value count : UInt64) (c : Bool),
      let x := w.vector value
      let n := countAt w count
      Guarded.shift op value count w c = .ok (shift op value count w c) ∧
      shift op value count w c =
        if n = 0 then none else some (w.ofVector (op.moved x n c).1, op.flags x n c)) ∧
    ∀ (s : Settings) (m : Machine) (l : Located) (op : ShiftOp) (target count : Operand)
      (v a : UInt64), s.disassemble = false → m.inCode = true → m.locate = .ok l →
      l.instruction = some (.shift op target count) →
      target.read { m with ip := l.next } = .ok v → count.read { m with ip := l.next } = .ok a →
      let x := target.width.vector v
      let n := countAt target.width a
      let c := isOn m.flags.carry
      (n = 0 → (m.run s true).stop = .step ∧ (m.run s true).machine = { m with ip := l.next }) ∧
      (n ≠ 0 → m.Puts s l.next target (target.width.ofVector (op.moved x n c).1)
        (m.flags.overlap (op.flags x n c))) :=
  ⟨fun _ hw op value count c =>
    ⟨Guarded.shift_eq op value count hw c, shift_ofVector hw op value count c⟩,
    fun _ _ _ _ _ _ _ _ hd hc hl hi hv ha => run_shift hd hc hl hi hv ha⟩

def negativeByte : Machine := (ofCode [0xC0, 0xF8, 0x09]).set (.accumulator .byte) 0x80

theorem negativeByte_shifts :
    (negativeByte.run .execute true).stop = .step ∧
      (negativeByte.run .execute true).machine.get (.accumulator .byte) = 0xFF ∧
      (negativeByte.run .execute true).machine.flags.carry = some true ∧
      shift .shl 0x81 9 .byte true =
        some (0, { carry := some false, zero := some true, sign := some false
                   parity := some true }) := by
  have hl : negativeByte.locate = .ok ⟨0x1000, {}, .oneByte, 0xC0,
      some (.shift .sar (.register ⟨.general, 0, .byte, false⟩) (.immediate ⟨9, .byte, false⟩)),
      0x1003⟩ := by rfl
  have hputs := (shifts_exact.2 .execute negativeByte _ _ _ _ 0x80 9 rfl (by rfl) hl rfl (by rfl)
    (by rfl)).2 (by decide)
  refine ⟨hputs.completes, ?_, ?_, ?_⟩
  · exact (Except.ok.inj hputs.kept).trans (by decide +kernel)
  · rw [hputs.flags_eq]
    decide +kernel
  · rw [(shifts_exact.1 .byte (by decide) .shl 0x81 9 true).2]
    decide +kernel

end Machine

/-! Rotations through the carry. -/

def ShiftOp.throughCarry (left : Bool) : ShiftOp := if left then .rcl else .rcr

def turned {n : Nat} (left : Bool) (x : BitVec n) (m : Nat) : BitVec n :=
  if left then x.rotateLeft m else x.rotateRight m

/-- The vector of a word, with the carry on top. -/
def Width.withCarry (w : Width) (c : Bool) (v : UInt64) : BitVec (w.bits + 1) :=
  BitVec.cons c (w.vector v)

@[simp] theorem turned_zero {n : Nat} (left : Bool) (x : BitVec n) : turned left x 0 = x := by
  cases left with
  | false => exact rotateRight_zero x
  | true => exact rotateLeft_zero x

theorem turned_turned {n : Nat} (left : Bool) (x : BitVec n) (m : Nat) :
    turned (!left) (turned left x m) m = x := by
  cases left with
  | false => exact rotateLeft_rotateRight x m
  | true => exact rotateRight_rotateLeft x m

section

variable {w : Width} {c : Bool} {v : UInt64}

theorem Width.withCarry_injective (hw : w.bytes ≤ 8) {c' : Bool} {v' : UInt64}
    (hv : v.toNat < w.modulus) (hv' : v'.toNat < w.modulus)
    (h : w.withCarry c v = w.withCarry c' v') : c = c' ∧ v = v' := by
  have hvector : w.vector v = w.vector v' := by
    simpa only [withCarry, BitVec.setWidth_cons] using congrArg (BitVec.setWidth w.bits) h
  have hcarry : c = c' := by
    simpa only [withCarry, BitVec.msb_cons] using congrArg BitVec.msb h
  have hword := congrArg w.ofVector hvector
  rw [ofVector_vector hw, ofVector_vector hw, and_mask_of_lt hv, and_mask_of_lt hv'] at hword
  exact ⟨hcarry, hword⟩

/-- The carry on top of the result is the rotated vector. -/
theorem ShiftOp.cons_moved (left : Bool) {n : Nat} (x : BitVec n) (m : Nat) (c : Bool) :
    BitVec.cons ((throughCarry left).moved x m c).2 ((throughCarry left).moved x m c).1 =
      turned left (BitVec.cons c x) (m % (n + 1)) := by
  cases left with
  | false | true => exact BitVec.cons_msb_setWidth _

theorem ShiftOp.flags_throughCarry (left : Bool) {n : Nat} (x : BitVec n) (m : Nat) (c : Bool) :
    ((throughCarry left).flags x m c).carry = some ((throughCarry left).moved x m c).2 := by
  cases left <;> rfl

theorem ShiftOp.defines_throughCarry (left : Bool) :
    (throughCarry left).defines = [.carry, .overflow] := by
  cases left <;> rfl

theorem Width.withCarry_and_mask (hw : w.bytes ≤ 8) (c : Bool) (v : UInt64) :
    w.withCarry c (v &&& w.mask) = w.withCarry c v := by
  rw [withCarry, ← ofVector_vector hw, vector_ofVector hw, withCarry]

theorem Arithmetic.shift_throughCarry (hw : w.bytes ≤ 8) (left : Bool) (value count : UInt64)
    (c : Bool) (h0 : countAt w count ≠ 0) :
    ∃ r f b, shift (.throughCarry left) value count w c = some (r, f) ∧ r.toNat < w.modulus ∧
      f.carry = some b ∧ w.withCarry b r =
        turned left (w.withCarry c value) (countAt w count % (w.bits + 1)) := by
  refine ⟨_, _, _, (shift_ofVector hw _ value count c).trans (if_neg h0), Width.ofVector_lt hw _,
    ShiftOp.flags_throughCarry left _ _ _, ?_⟩
  rw [Width.withCarry, Width.vector_ofVector hw]
  exact ShiftOp.cons_moved left _ _ _

end

namespace Machine

variable {s : Settings} {m : Machine} {l : Located} {target count : Operand} {left : Bool}
  {v n : UInt64}

/-- What a rotation through the carry does to the target with the carry on top, and to no flag but
the carry and the overflow. -/
theorem run_throughCarry (hd : s.disassemble = false) (hc : m.inCode = true)
    (hl : m.locate = .ok l) (hi : l.instruction = some (.shift (.throughCarry left) target count))
    (hv : target.read { m with ip := l.next } = .ok v)
    (hn : count.read { m with ip := l.next } = .ok n) :
    let w := target.width
    let after := (m.run s true).machine
    (m.run s true).stop = .step ∧
    (∃ r, target.read after = .ok r ∧ r.toNat < w.modulus ∧
      w.withCarry (isOn after.flags.carry) r =
        turned left (w.withCarry (isOn m.flags.carry) v) (countAt w n % (w.bits + 1))) ∧
    ∀ f, f ≠ .carry → f ≠ .overflow → after.flags.get f = m.flags.get f := by
  intro w after
  have hw : w.bytes ≤ 8 :=
    Located.operand_width_of_at? hl hi (o := target) (by simp [Instruction.operands])
  have hlt : v.toNat < w.modulus :=
    Located.read_lt_of_at? hl hi (by simp [Instruction.named, Instruction.operands]) hv
  obtain ⟨hzero, hputs⟩ := run_shift hd hc hl hi hv hn
  have hstop : (m.run s true).stop = .step := by
    by_cases h0 : countAt w n = 0
    · exact (hzero h0).1
    · exact (hputs h0).completes
  refine ⟨hstop, ?_, fun f hcarry hoverflow => ?_⟩
  · by_cases h0 : countAt w n = 0
    · have hafter : after = { m with ip := l.next } := (hzero h0).2
      refine ⟨v, by rw [hafter, hv], hlt, ?_⟩
      rw [hafter, h0, Nat.zero_mod, turned_zero]
    · refine ⟨_, (hputs h0).kept, Width.ofVector_lt hw _, ?_⟩
      have hflags : after.flags = _ := (hputs h0).flags_eq
      rw [hflags, Flags.overlap, Flags.zipWith, ShiftOp.flags_throughCarry, isOn_or,
        Width.withCarry, Width.vector_ofVector hw]
      exact ShiftOp.cons_moved left _ _ _
  · have hover := (Instruction.shift (.throughCarry left) target count).execute_overlaid
      (frameOf s l) { m with ip := l.next }
    rw [execute_of_completed hl hd hi hstop] at hover
    refine hover.get (f := f) ?_
    rw [Instruction.defines, ShiftOp.defines_throughCarry]
    simp [hcarry, hoverflow]

/-- A rotation through the carry turns the vector of the carry and the target, and one by the same
count in the other direction takes it back. -/
theorem throughCarry_exact :
    (∀ w : Width, w.bytes ≤ 8 → ∀ (left : Bool) (value count : UInt64) (c : Bool),
      let n := countAt w count
      (n = 0 → shift (.throughCarry left) value count w c = none) ∧
      (n ≠ 0 → ∃ r f b g, shift (.throughCarry left) value count w c = some (r, f) ∧
        f.carry = some b ∧
        w.withCarry b r = turned left (w.withCarry c value) (n % (w.bits + 1)) ∧
        shift (.throughCarry !left) r count w b = some (value &&& w.mask, g) ∧
        g.carry = some c)) ∧
    ∀ (s : Settings) (m : Machine) (l : Located) (left : Bool) (target count : Operand)
      (v a : UInt64), s.disassemble = false → m.inCode = true → m.locate = .ok l →
      l.instruction = some (.shift (.throughCarry left) target count) →
      target.read { m with ip := l.next } = .ok v → count.read { m with ip := l.next } = .ok a →
      let w := target.width
      let after := (m.run s true).machine
      (m.run s true).stop = .step ∧
      (∃ r, target.read after = .ok r ∧ w.withCarry (isOn after.flags.carry) r =
        turned left (w.withCarry (isOn m.flags.carry) v) (countAt w a % (w.bits + 1))) ∧
      (∀ f, f ≠ .carry → f ≠ .overflow → after.flags.get f = m.flags.get f) ∧
      ∀ (t : Settings) (k : Located) (target' count' : Operand) (a' : UInt64),
        t.disassemble = false → after.inCode = true → after.locate = .ok k →
        k.instruction = some (.shift (.throughCarry !left) target' count') →
        target'.width = w → target'.read { after with ip := k.next } = target.read after →
        count'.read { after with ip := k.next } = .ok a' → countAt w a' = countAt w a →
        (after.run t true).stop = .step ∧
        target'.read (after.run t true).machine = .ok v ∧
        isOn (after.run t true).machine.flags.carry = isOn m.flags.carry := by
  refine ⟨fun w hw left value count c => ⟨fun h0 => ?_, fun h0 => ?_⟩,
    fun s m l left target count v a hd hc hl hi hv ha => ?_⟩
  · exact (shift_ofVector hw _ value count c).trans (if_pos h0)
  · obtain ⟨r, f, b, hrf, hr, hb, hturned⟩ := shift_throughCarry hw left value count c h0
    obtain ⟨r', g, b', hrg, hr', hb', hback⟩ := shift_throughCarry hw (!left) r count b h0
    rw [hturned, turned_turned, ← Width.withCarry_and_mask hw c value] at hback
    obtain ⟨rfl, rfl⟩ := Width.withCarry_injective hw hr' (Width.mask_lt w value) hback
    exact ⟨r, f, b, g, hrf, hb, hturned, hrg, hb'⟩
  · have hw : target.width.bytes ≤ 8 :=
      Located.operand_width_of_at? hl hi (o := target) (by simp [Instruction.operands])
    have hlt : v.toNat < target.width.modulus :=
      Located.read_lt_of_at? hl hi (by simp [Instruction.named, Instruction.operands]) hv
    obtain ⟨hstop, ⟨r, hr, -, hturned⟩, hflags⟩ := run_throughCarry hd hc hl hi hv ha
    refine ⟨hstop, ⟨r, hr, hturned⟩, hflags,
      fun t k target' count' a' hd' hc' hk hi' hwidth hread ha' hcount => ?_⟩
    obtain ⟨hstop', ⟨r', hr', hlt', hback⟩, -⟩ :=
      run_throughCarry hd' hc' hk hi' (hread.trans hr) ha'
    rw [hwidth] at hlt' hback
    rw [hcount, hturned, turned_turned] at hback
    obtain ⟨hcarry, rfl⟩ := Width.withCarry_injective hw hlt' hlt hback
    exact ⟨hstop', hr', hcarry⟩

/-- `RCL AL, 10` and `RCR AL, 10`, with the carry on. -/
def turnedByte : Machine :=
  ((ofCode [0xC0, 0xD0, 0x0A, 0xC0, 0xD8, 0x0A]).set (.accumulator .byte) 0x40).define
    { carry := some true }

theorem turnedByte_turns_back :
    let after := (turnedByte.run .execute true).machine
    (∃ r, after.get (.accumulator .byte) = r ∧
      Width.byte.withCarry (isOn after.flags.carry) r = 0x081) ∧
    (after.run .execute true).machine.get (.accumulator .byte) = 0x40 ∧
    isOn (after.run .execute true).machine.flags.carry = true := by
  have hl : turnedByte.locate = .ok ⟨0x1000, {}, .oneByte, 0xC0,
      some (.shift (.throughCarry true) (.register ⟨.general, 0, .byte, false⟩)
        (.immediate ⟨10, .byte, false⟩)), 0x1003⟩ := by rfl
  have hk : (turnedByte.run .execute true).machine.locate = .ok ⟨0x1003, {}, .oneByte, 0xC0,
      some (.shift (.throughCarry false) (.register ⟨.general, 0, .byte, false⟩)
        (.immediate ⟨10, .byte, false⟩)), 0x1006⟩ := by rfl
  obtain ⟨-, ⟨r, hr, hturned⟩, -, hback⟩ := throughCarry_exact.2 .execute turnedByte _ true _ _
    0x40 10 rfl (by rfl) hl rfl (by rfl) (by rfl)
  obtain ⟨-, hvalue, hcarry⟩ := hback .execute _ _ _ 10 rfl (by rfl) hk rfl rfl rfl (by rfl) rfl
  exact ⟨⟨r, Except.ok.inj hr, hturned.trans (by rfl)⟩, Except.ok.inj hvalue,
    hcarry.trans (by rfl)⟩

end Machine

end LongMode
