import LongMode.Proofs.Execute.Flags
import LongMode.Proofs.Run.Iteration
import LongMode.Proofs.Run.Sum
/-!
Numbers of many limbs, added or subtracted from the lowest limb up. The carry flag hands the carry
of each limb on to the next one, across instructions that leave this flag alone; so the limbs of
the results are the whole result, and the last carry and overflow are those of the whole number.
-/

namespace LongMode

open Arithmetic

/-- The operation on the lowest limbs, and the one on those above, which takes the carry in. -/
def BinaryOp.onLimb (subtract lowest : Bool) : BinaryOp :=
  if subtract then (if lowest then .sub else .sbb) else if lowest then .add else .adc

/-- What words of a width stand for as the limbs of one number, the lowest first. -/
def limbs (w : Width) (vs : List UInt64) : Nat := Nat.ofDigits (2 ^ w.bits) (vs.map UInt64.toNat)

/-- Two limbs, and the operands that hold them where the machine is. -/
structure Limb where
  machine : Machine
  target : Operand
  source : Operand
  left : UInt64
  right : UInt64

namespace Limb

structure At (op : BinaryOp) (w : Width) (x : Limb) : Prop where
  inCode : x.machine.inCode = true
  located : ∃ l, x.machine.locate = .ok l ∧ l.instruction = some (.binary op x.target x.source) ∧
    x.target.read { x.machine with ip := l.next } = .ok x.left ∧
    x.source.read { x.machine with ip := l.next } = .ok x.right
  width : x.target.width = w

def after (s : Settings) (x : Limb) : Machine := (x.machine.run s true).machine

def result (s : Settings) (x : Limb) : Except Fault UInt64 := x.target.read (x.after s)

end Limb

/-- The step carries out an instruction that does not define the carry, or passes over an opcode
without an instruction. -/
structure Machine.PassesCarry (s : Settings) (m : Machine) : Prop where
  completes : (m.run s true).stop = .step
  undefined : ∀ l ∈ m.locate.toOption, ∀ i ∈ l.instruction, Flag.carry ∉ i.defines

/-- The limbs that the machine works on from `m` to `n`, in this order; the first of them may be the
lowest one. In between it passes steps that do not define the carry. -/
inductive Chain (s : Settings) (subtract : Bool) (w : Width) :
    Bool → Machine → List Limb → Machine → Prop
  | last {lowest : Bool} {x : Limb} (hx : x.At (.onLimb subtract lowest) w) :
    Chain s subtract w lowest x.machine [x] (x.after s)
  | limb {lowest : Bool} {x : Limb} {xs : List Limb} {n : Machine}
    (hx : x.At (.onLimb subtract lowest) w) (h : Chain s subtract w false (x.after s) xs n) :
    Chain s subtract w lowest x.machine (x :: xs) n
  | pass {m n : Machine} {xs : List Limb} (hm : m.PassesCarry s)
    (h : Chain s subtract w false (m.run s true).machine xs n) : Chain s subtract w false m xs n

section

variable {w : Width} {v : UInt64} {vs : List UInt64}

theorem limbs_cons : limbs w (v :: vs) = v.toNat + 2 ^ w.bits * limbs w vs := by
  rw [limbs, List.map_cons, Nat.ofDigits_cons]
  rfl

theorem limbs_single : limbs w [v] = v.toNat := by
  rw [limbs, List.map_singleton, Nat.ofDigits_singleton]

theorem limbs_lt (h : ∀ v ∈ vs, v.toNat < 2 ^ w.bits) : limbs w vs < 2 ^ (w.bits * vs.length) := by
  have hlt : limbs w vs < (2 ^ w.bits) ^ (vs.map UInt64.toNat).length :=
    Nat.ofDigits_lt_base_pow_length (Nat.one_lt_two_pow w.bits_pos.ne') (by simpa using h)
  rwa [List.length_map, ← pow_mul] at hlt

end

def Machine.carryInto (lowest : Bool) (m : Machine) : Bool := !lowest && isOn m.flags.carry

variable {s : Settings} {subtract lowest : Bool} {w : Width} {m n : Machine} {x : Limb}
  {xs : List Limb}

theorem Execute.binaryResult_onLimb (hw : w.bytes ≤ 8) (subtract lowest : Bool) (a b : UInt64)
    (c : Bool) : binaryResult (.onLimb subtract lowest) a b c w =
      totalled subtract w a b (!lowest && c) := by
  cases subtract with
  | false =>
    rw [← add_eq_totalled hw]
    cases lowest <;> rfl
  | true =>
    rw [← sub_eq_totalled hw]
    cases lowest <;> rfl

theorem BinaryOp.onLimb_ne_cmp (subtract lowest : Bool) : onLimb subtract lowest ≠ .cmp := by
  cases subtract <;> cases lowest <;> decide

/-- The machine `n` is reached from `m` by steps all of which complete. -/
def Machine.Leads (s : Settings) (m n : Machine) : Prop :=
  ∃ k, n = m.after s k ∧ ∀ j < k, ((m.after s j).run s true).stop = .step

theorem Machine.Leads.of_step (h : (m.run s true).stop = .step)
    (hn : (m.run s true).machine.Leads s n) : m.Leads s n := by
  obtain ⟨k, rfl, hk⟩ := hn
  refine ⟨k + 1, (after_succ s k m).symm, fun j hj => ?_⟩
  cases j with
  | zero => exact h
  | succ j =>
    rw [after_succ]
    exact hk j (Nat.lt_of_succ_lt_succ hj)

namespace Limb

/-- The operation puts the total of its limbs and the carry into its target. -/
theorem At.puts (hd : s.disassemble = false) (h : x.At (.onLimb subtract lowest) w) :
    (w.bytes ≤ 8 ∧ x.left.toNat < 2 ^ w.bits ∧ x.right.toNat < 2 ^ w.bits) ∧
    let t := totalled subtract w x.left x.right (x.machine.carryInto lowest)
    ∃ next, x.machine.Puts s next x.target t.1 (x.machine.flags.overlap t.2) := by
  obtain ⟨hc, ⟨l, hl, hi, ha, hb⟩, rfl⟩ := h
  have hw : x.target.width.bytes ≤ 8 :=
    Located.operand_width_of_at? hl hi (by simp [Instruction.operands])
  have hsame : x.source.width = x.target.width := (Located.encoded_of_at? hl hi).agree
  have hlta : x.left.toNat < x.target.width.modulus :=
    Located.read_lt_of_at? hl hi (by simp [Instruction.named, Instruction.operands]) ha
  have hltb : x.right.toNat < x.source.width.modulus :=
    Located.read_lt_of_at? hl hi (by simp [Instruction.named, Instruction.operands]) hb
  rw [hsame] at hltb
  refine ⟨⟨hw, Width.modulus_eq hw ▸ hlta, Width.modulus_eq hw ▸ hltb⟩, l.next, ?_⟩
  exact Machine.run_binary hd hc hl hi (BinaryOp.onLimb_ne_cmp subtract lowest) ha hb
    (Execute.binaryResult_onLimb hw subtract lowest _ _ _) (totalled_lt hw subtract _ _ _)

end Limb

theorem Machine.PassesCarry.carry_eq (hd : s.disassemble = false) (h : m.PassesCarry s) :
    (m.run s true).machine.flags.carry = m.flags.carry := by
  have hc : m.inCode = true := inCode_of_stop (by rw [h.completes]; nofun)
  have hstop := h.completes
  rw [run_single_stop hc] at hstop
  cases hl : m.locate with
  | error e =>
    rw [(step_of_error hl).1] at hstop
    exact absurd hstop (StopReason.ofHalt_ne_step e)
  | ok l =>
    cases hi : l.instruction with
    | none => rw [run_single_machine hc, step_unknown hl hd hi]
    | some i =>
      have hx := execute_of_completed hl hd hi h.completes
      have hover := i.execute_overlaid (frameOf s l) { m with ip := l.next }
      rw [hx] at hover
      exact hover.get (h.undefined l (by rw [hl]; rfl) i hi)

namespace Chain

/-- The operands are words of the width. -/
theorem operands_lt (hd : s.disassemble = false) (h : Chain s subtract w lowest m xs n) :
    xs ≠ [] ∧ (∀ v ∈ xs.map Limb.left, v.toNat < 2 ^ w.bits) ∧
      ∀ v ∈ xs.map Limb.right, v.toNat < 2 ^ w.bits := by
  induction h with
  | last hx =>
    obtain ⟨⟨-, ha, hb⟩, -⟩ := hx.puts hd
    simp [ha, hb]
  | limb hx h ih =>
    obtain ⟨⟨-, ha, hb⟩, -⟩ := hx.puts hd
    simp only [List.map_cons, List.forall_mem_cons]
    exact ⟨List.cons_ne_nil _ _, ⟨ha, ih.2.1⟩, hb, ih.2.2⟩
  | pass hm h ih => exact ih

theorem leads (hd : s.disassemble = false) (h : Chain s subtract w lowest m xs n) :
    m.Leads s n := by
  induction h with
  | last hx =>
    obtain ⟨-, next, hputs⟩ := hx.puts hd
    exact .of_step hputs.completes ⟨0, rfl, by simp⟩
  | limb hx h ih =>
    obtain ⟨-, next, hputs⟩ := hx.puts hd
    exact .of_step hputs.completes ih
  | pass hm h ih => exact .of_step hm.completes ih

end Chain

/-- What is left of a chain when it ends, from a carry on: the operations leave limbs in their
targets that are the low bits of the total, and two flags tell where the total has no place. -/
structure Limb.Totalled (s : Settings) (subtract : Bool) (w : Width) (c : Bool) (xs : List Limb)
    (n : Machine) : Prop where
  results : ∃ rs, xs.map (Limb.result s) = rs.map .ok ∧ (∀ r ∈ rs, r.toNat < 2 ^ w.bits) ∧
    limbs w rs = kept subtract (w.bits * xs.length) (limbs w (xs.map Limb.left))
      (limbs w (xs.map Limb.right)) c
  carry : n.flags.carry = some (exceeds false subtract (w.bits * xs.length)
    (limbs w (xs.map Limb.left)) (limbs w (xs.map Limb.right)) c)
  overflow : n.flags.overflow = some (exceeds true subtract (w.bits * xs.length)
    (limbs w (xs.map Limb.left)) (limbs w (xs.map Limb.right)) c)

namespace Limb

theorem At.totalled (hd : s.disassemble = false) (h : x.At (.onLimb subtract lowest) w) :
    Totalled s subtract w (x.machine.carryInto lowest) [x] (x.after s) := by
  obtain ⟨⟨hw, ha, hb⟩, next, hputs⟩ := h.puts hd
  have hlt := totalled_lt hw subtract x.left x.right (x.machine.carryInto lowest)
  have hsize : 2 ^ w.bits ≤ UInt64.size := Nat.pow_le_pow_right (by decide) (Width.bits_le hw)
  have hflags : (x.after s).flags = _ := hputs.flags_eq
  rw [Width.modulus_eq hw] at hlt
  constructor
  case results =>
    refine ⟨[_], congrArg (· :: []) hputs.kept, by simpa using hlt, ?_⟩
    simp only [limbs_single, List.map_cons, List.map_nil, List.length_singleton, Nat.mul_one]
    rw [Arithmetic.totalled, Nat.mod_eq_of_lt ha, Nat.mod_eq_of_lt hb]
    exact UInt64.toNat_ofNat_of_lt' (kept_lt.trans_le hsize)
  case carry | overflow =>
    simp only [limbs_single, List.map_cons, List.map_nil, List.length_singleton, Nat.mul_one]
    rw [hflags, Arithmetic.totalled, Nat.mod_eq_of_lt ha, Nat.mod_eq_of_lt hb]
    rfl

/-- The limbs above one limb, with its carry, are the high part of a number joined to it. -/
theorem Totalled.cons {c : Bool} {k : Machine} (hx : Totalled s subtract w c [x] k)
    (hxs : Totalled s subtract w (isOn k.flags.carry) xs n) (hne : xs ≠ [])
    (ha : ∀ v ∈ (x :: xs).map left, v.toNat < 2 ^ w.bits)
    (hb : ∀ v ∈ (x :: xs).map right, v.toNat < 2 ^ w.bits) :
    Totalled s subtract w c (x :: xs) n := by
  rw [List.map_cons, List.forall_mem_cons] at ha hb
  have hbits : w.bits * (x :: xs).length = w.bits + w.bits * xs.length := by
    rw [List.length_cons]
    ring
  have hpos : 0 < w.bits * xs.length := Nat.mul_pos w.bits_pos (List.length_pos_iff.2 hne)
  have hA : limbs w (xs.map left) < 2 ^ (w.bits * xs.length) := by simpa using limbs_lt ha.2
  have hB : limbs w (xs.map right) < 2 ^ (w.bits * xs.length) := by simpa using limbs_lt hb.2
  obtain ⟨⟨rs, hrs, hlt, hvalue⟩, hcarry, -⟩ := hx
  obtain ⟨⟨rs', hrs', hlt', hvalue'⟩, hcarry', hoverflow'⟩ := hxs
  simp only [limbs_single, List.map_cons, List.map_nil, List.length_singleton, Nat.mul_one]
    at hcarry hvalue hrs
  rw [hcarry, isOn_some] at hvalue' hcarry' hoverflow'
  constructor
  case results =>
    have hone : rs.length = 1 := by simpa using (congrArg List.length hrs).symm
    obtain ⟨r, rfl⟩ := List.length_eq_one_iff.1 hone
    rw [limbs_single] at hvalue
    refine ⟨r :: rs', ?_, ?_, ?_⟩
    · rw [List.map_cons, hrs', List.map_cons, (List.cons.inj hrs).1]
    · rw [List.forall_mem_cons]
      exact ⟨hlt r List.mem_cons_self, hlt'⟩
    · rw [hbits, List.map_cons, List.map_cons, limbs_cons, limbs_cons, limbs_cons,
        kept_append subtract c hpos ha.1 hb.1 hA hB, hvalue, hvalue']
  case carry =>
    rw [hbits, List.map_cons, List.map_cons, limbs_cons, limbs_cons,
      exceeds_append false subtract c hpos ha.1 hb.1 hA hB, hcarry']
  case overflow =>
    rw [hbits, List.map_cons, List.map_cons, limbs_cons, limbs_cons,
      exceeds_append true subtract c hpos ha.1 hb.1 hA hB, hoverflow']

end Limb

theorem Chain.totalled (hd : s.disassemble = false) (h : Chain s subtract w lowest m xs n) :
    Limb.Totalled s subtract w (m.carryInto lowest) xs n := by
  induction h with
  | last hx => exact hx.totalled hd
  | limb hx h ih =>
    obtain ⟨hne, ha, hb⟩ := h.operands_lt hd
    obtain ⟨-, ha', hb'⟩ := (Chain.limb hx h).operands_lt hd
    exact (hx.totalled hd).cons ih hne ha' hb'
  | pass hm h ih =>
    have hsame := hm.carry_eq hd
    rwa [Machine.carryInto, hsame] at ih

/-- A chain from the lowest limbs up adds or subtracts whole numbers. -/
theorem limbs_exact (hd : s.disassemble = false) (h : Chain s subtract w true m xs n) :
    let bits := w.bits * xs.length
    let a := limbs w (xs.map Limb.left)
    let b := limbs w (xs.map Limb.right)
    (∃ rs, xs.map (Limb.result s) = rs.map .ok ∧ (∀ r ∈ rs, r.toNat < 2 ^ w.bits) ∧
      (limbs w rs : Int) = (if subtract then (a : Int) - b else a + b) % 2 ^ bits) ∧
    n.flags.carry = some (exceeds false subtract bits a b false) ∧
    n.flags.overflow = some (exceeds true subtract bits a b false) ∧ m.Leads s n := by
  intro bits a b
  obtain ⟨⟨rs, hrs, hlt, hvalue⟩, hcarry, hoverflow⟩ := h.totalled hd
  refine ⟨⟨rs, hrs, hlt, ?_⟩, hcarry, hoverflow, h.leads hd⟩
  rw [hvalue, kept_eq]
  simp [Machine.carryInto, total, number, a, b, bits]

/-- `ADD AL, CL` and `ADC AH, DL` with `LEA RBX, [RBX+1]`, `INC BL`, `NOT BL` and `MOV BH, BL` in
between, for the largest signed word and one. -/
def largestWord : Machine :=
  ((Machine.ofCode [0x00, 0xC8, 0x48, 0x8D, 0x5B, 0x01, 0xFE, 0xC3, 0xF6, 0xD3, 0x88, 0xDF, 0x10,
    0xD4]).set (.accumulator .word) 0x7FFF).set (.counter .byte) 1

def largestWordLow : Limb :=
  ⟨largestWord, .register { Register.accumulator .byte with rex := false },
    .register { Register.counter .byte with rex := false }, 0xFF, 1⟩

def largestWordHigh : Limb :=
  ⟨largestWord.after .execute 5, .register .highAccumulator,
    .register { Register.data .byte with rex := false }, 0x7F, 0⟩

theorem largestWord_overflows :
    let n := largestWord.after .execute 6
    (∃ rs, [largestWordLow, largestWordHigh].map (Limb.result .execute) = rs.map .ok ∧
      limbs .byte rs = 0x8000) ∧
    n.flags.carry = some false ∧ n.flags.overflow = some true := by
  have hlow : largestWordLow.At (.onLimb false true) .byte :=
    ⟨by rfl, ⟨⟨0x1000, {}, .oneByte, 0x00, some (.binary .add largestWordLow.target
      largestWordLow.source), 0x1002⟩, by rfl, rfl, by rfl, by rfl⟩, rfl⟩
  have hhigh : largestWordHigh.At (.onLimb false false) .byte :=
    ⟨by rfl, ⟨⟨0x100C, {}, .oneByte, 0x10, some (.binary .adc largestWordHigh.target
      largestWordHigh.source), 0x100E⟩, by rfl, rfl, by rfl, by rfl⟩, rfl⟩
  have hnext (k : Nat) : largestWord.after .execute (k + 1) =
      ((largestWord.after .execute k).run .execute true).machine := Machine.after_succ' _ _ _
  have hlast : Chain .execute false .byte false (largestWord.after .execute 5) [largestWordHigh]
      (largestWord.after .execute 6) := by
    rw [hnext 5]
    exact .last hhigh
  have hpass (k : Nat) (hm : (largestWord.after .execute k).PassesCarry .execute)
      (h : Chain .execute false .byte false (largestWord.after .execute (k + 1)) [largestWordHigh]
        (largestWord.after .execute 6)) :
      Chain .execute false .byte false (largestWord.after .execute k) [largestWordHigh]
        (largestWord.after .execute 6) := .pass hm (hnext k ▸ h)
  have hchain : Chain .execute false .byte true largestWord [largestWordLow, largestWordHigh]
      (largestWord.after .execute 6) :=
    .limb hlow <| hpass 1 ⟨by rfl, by decide +kernel⟩ <| hpass 2 ⟨by rfl, by decide +kernel⟩ <|
      hpass 3 ⟨by rfl, by decide +kernel⟩ <| hpass 4 ⟨by rfl, by decide +kernel⟩ hlast
  obtain ⟨⟨rs, hrs, -, hvalue⟩, hcarry, hoverflow, -⟩ := limbs_exact rfl hchain
  refine ⟨⟨rs, hrs, ?_⟩, hcarry.trans (by decide +kernel), hoverflow.trans (by decide +kernel)⟩
  have hsum : (limbs .byte rs : Int) = 0x8000 := hvalue.trans (by decide +kernel)
  exact_mod_cast hsum

end LongMode
