import LongMode.Proofs.Encoding.Operands
import LongMode.Proofs.Run.Quotient
/-!
A step that multiplies. It completes wherever its operands can be read, and leaves the exact product
in the accumulator pair, or its low half in a destination; two flags tell whether the low half alone
stands for the product. A division by the same register takes the product back.
-/

namespace LongMode

open Arithmetic

/-- The two flags of a product, both on if it does not fit, and all others as they were. -/
def Flags.afterProduct (f : Flags) (fits : Prop) [Decidable fits] : Flags :=
  { f with carry := some !fits, overflow := some !fits }

/-- A product has been put into the accumulator pair, and nothing else has changed but the flags. -/
structure Multiplied (signed : Bool) (w : Width) (product : Int) (m n : Machine) : Prop where
  exact : n.wide signed w = product
  flags : n.flags = m.flags.afterProduct (Fits signed w.bits product)
  memory : n.memory = m.memory
  breakpoints : n.breakpoints = m.breakpoints
  others : ∀ r : Register, ¬r.InPair w → n.get r = m.get r

/-- The low half of a signed product has been put into a register, and nothing else has changed but
the flags. -/
structure MultipliedInto (r : Register) (product : Int) (m n : Machine) : Prop where
  low : ((n.get r).toNat : Int) = product % 2 ^ r.width.bits
  flags : n.flags = m.flags.afterProduct (Fits true r.width.bits product)
  memory : n.memory = m.memory
  breakpoints : n.breakpoints = m.breakpoints
  others : ∀ q : Register, q.slot ≠ r.slot → n.get q = m.get q

/-! It does not matter to a product where its instruction is. -/

theorem Multiplied.moved {signed : Bool} {w : Width} {product : Int} {m n : Machine} {a : UInt64}
    (h : Multiplied signed w product { m with ip := a } n) : Multiplied signed w product m n :=
  ⟨h.exact, h.flags, h.memory, h.breakpoints, h.others⟩

theorem MultipliedInto.moved {r : Register} {product : Int} {m n : Machine} {a : UInt64}
    (h : MultipliedInto r product { m with ip := a } n) : MultipliedInto r product m n :=
  ⟨h.low, h.flags, h.memory, h.breakpoints, h.others⟩

namespace Machine

variable {s t : Settings} {m : Machine} {l : Located} {signed : Bool} {source dst src : Operand}
  {factor : Option Operand} {a b : UInt64}

theorem define_overflowFlags {fits : Prop} [Decidable fits] {overflow : Bool}
    (h : overflow = true ↔ ¬fits) (m : Machine) :
    (m.define (Execute.overflowFlags overflow)).flags = m.flags.afterProduct fits := by
  have hb : overflow = !decide fits := by
    rw [Bool.eq_iff_iff, h]
    simp
  rw [hb]
  rfl

theorem multiplied_setPair {w : Width} (hw : w.bytes ≤ 8) (hb : b.toNat < w.modulus) :
    let p := mul signed (m.get (.accumulator w)) b w
    Multiplied signed w (m.number signed (.accumulator w) * Arithmetic.number signed w.bits b.toNat)
      m ((Execute.setPair w p.low p.high m).define (Execute.overflowFlags p.overflow)) := by
  intro p
  have ha : (m.get (.accumulator w)).toNat < w.modulus := m.get_general_lt 0 w
  have hlow : p.low.toNat < 2 ^ w.bits := by
    rw [mul_low hw]
    exact word_lt hw _
  have hhigh : p.high.toNat < 2 ^ w.bits := by
    rw [mul_high hw]
    exact word_lt hw _
  constructor
  case exact =>
    change Arithmetic.number signed (2 * w.bits) ((Execute.setPair w p.low p.high m).pair w) = _
    rw [pair_setPair hw m hlow hhigh]
    exact number_mul hw ha hb
  case flags =>
    rw [define_overflowFlags (mul_overflow hw ha hb), setPair_eq]
    rfl
  case others => exact fun r hr => get_setPair_of_not_inPair m hr
  case memory | breakpoints =>
    rw [setPair_eq]
    rfl

theorem multipliedInto_set {r : Register} (hw : r.width.bytes ≤ 8) (hr : r.bank = .general) :
    let p := mul true a b r.width
    MultipliedInto r (product true a b r.width) m
      ((m.set r p.low).define (Execute.overflowFlags p.overflow)) := by
  intro p
  have hlow : p.low = UInt64.ofInt (product true a b r.width) &&& r.width.mask := mul_low hw
  constructor
  case low =>
    change ((r.fetch (r.set m.registers p.low)).toNat : Int) = _
    rw [Register.fetch_set hr, hlow, UInt64.and_assoc, UInt64.and_self, word_eq_emod hw]
  case flags => exact define_overflowFlags (mulSigned_overflow a b hw) _
  case others => exact fun q hq => Register.fetch_set_of_slot_ne hq m.registers p.low
  case memory | breakpoints => rfl

theorem run_multiply (hd : s.disassemble = false) (hc : m.inCode = true) (hl : m.locate = .ok l)
    (hi : l.instruction = some (.multiply signed source))
    (hread : source.read { m with ip := l.next } = .ok b) :
    (m.run s true).stop = .step ∧ (m.run s true).machine.ip = l.next ∧
      Multiplied signed source.width (m.number signed (.accumulator source.width) *
        Arithmetic.number signed source.width.bits b.toNat) m (m.run s true).machine := by
  have hw : source.width.bytes ≤ 8 :=
    ((Located.at?_spans hl).wellFormed _ hi).operand_width (by simp [Instruction.operands])
  have hnamed : source.Named :=
    Located.named_of_at? hl hi source (by simp [Instruction.named, Instruction.operands])
  have hread := Execute.read_of_ok hread
  have hx := Execute.multiply_of_read signed hread
  obtain ⟨hstop, hmachine⟩ := run_of_done hl hd hi hc (congrArg (Outcome.whole _) hx)
  rw [hmachine]
  refine ⟨hstop, ?_, (multiplied_setPair (m := { m with ip := l.next }) hw (Execute.read_lt hnamed hread)).moved⟩
  rw [setPair_eq]
  rfl

theorem run_multiplyInto (hd : s.disassemble = false) (hc : m.inCode = true)
    (hl : m.locate = .ok l) (hi : l.instruction = some (.multiplyInto dst src factor))
    (ha : (if factor.isSome then src else dst).read { m with ip := l.next } = .ok a)
    (hb : (factor.getD src).read { m with ip := l.next } = .ok b) :
    ∃ r : Register, dst = .register r ∧ src.width = r.width ∧ (∀ f ∈ factor, f.width = r.width) ∧
      (m.run s true).stop = .step ∧ (m.run s true).machine.ip = l.next ∧
      MultipliedInto r (product true a b r.width) m (m.run s true).machine := by
  have hw : dst.width.bytes ≤ 8 :=
    ((Located.at?_spans hl).wellFormed _ hi).operand_width (by simp [Instruction.operands])
  obtain ⟨r, rfl, hbank, hsrc, hfactor⟩ := (Located.encoded_of_at? hl hi).agree
  have hx : Execute.multiplyInto (.register r) src factor { m with ip := l.next } =
      .ok ((set { m with ip := l.next } r (mul true a b r.width).low).define
        (Execute.overflowFlags (mul true a b r.width).overflow)) := by
    unfold Execute.multiplyInto
    rw [Execute.read_of_ok ha, Execute.read_of_ok hb]
    rfl
  obtain ⟨hstop, hmachine⟩ := run_of_done hl hd hi hc (congrArg (Outcome.whole _) hx)
  rw [hmachine]
  exact ⟨r, rfl, hsrc, hfactor, hstop, rfl, (multipliedInto_set (m := { m with ip := l.next }) hw hbank).moved⟩

/-- A product in the pair, divided by one of its factors. -/
theorem run_divide_product {r : Register} {factor : Int} (hd : s.disassemble = false)
    (hc : m.inCode = true) (hl : m.locate = .ok l)
    (hi : l.instruction = some (.divide signed (.register r))) (h0 : m.get r ≠ 0)
    (hfactor : Fits signed r.width.bits factor)
    (hwide : m.wide signed r.width = factor * m.number signed r) :
    (m.run s true).stop = .step ∧
      (m.run s true).machine.number signed (.accumulator r.width) = factor ∧
      (m.run s true).machine.number signed (.upper r.width) = 0 := by
  have hw : r.width.bytes ≤ 8 := ((Located.at?_spans hl).wellFormed _ hi).operand_width
    (o := .register r) (by simp [Instruction.operands])
  rw [← dividend_halves] at hwide
  obtain ⟨x, y, hdiv, ⟨hxlt, hx⟩, hylt, hy⟩ :=
    div_product hw (r.fetch_lt m.registers) h0 hfactor hwide
  have hread : Execute.read (.register r) { m with ip := l.next } = .ok (m.get r) := rfl
  obtain ⟨hnone, -⟩ | ⟨x', y', hsome, hstop, hmachine⟩ := run_divide_cases hl hi hd hc hread
  · exact absurd (hnone.symm.trans hdiv) (by simp)
  · obtain ⟨rfl, rfl⟩ := Prod.mk.inj (Option.some.inj (hdiv.symm.trans hsome))
    obtain ⟨hlow, hhigh⟩ := get_setPair hw { m with ip := l.next } hxlt hylt
    rw [hmachine]
    exact ⟨hstop, (number_of_toNat rfl hlow).trans hx,
      (number_of_toNat (upper_width r.width) hhigh).trans hy⟩

theorem run_multiplies (hd : s.disassemble = false) (hc : m.inCode = true)
    (hl : m.locate = .ok l) :
    let past := { m with ip := l.next }
    let after := (m.run s true).machine
    (∀ signed source b, l.instruction = some (.multiply signed source) → source.read past = .ok b →
      (m.run s true).stop = .step ∧ after.ip = l.next ∧
      Multiplied signed source.width (m.number signed (.accumulator source.width) *
        Arithmetic.number signed source.width.bits b.toNat) m after) ∧
    (∀ dst src factor a b, l.instruction = some (.multiplyInto dst src factor) →
      (if factor.isSome then src else dst).read past = .ok a →
      (factor.getD src).read past = .ok b →
      ∃ r : Register, dst = .register r ∧ src.width = r.width ∧ (∀ f ∈ factor, f.width = r.width) ∧
        (m.run s true).stop = .step ∧ after.ip = l.next ∧
        MultipliedInto r (Arithmetic.number true r.width.bits a.toNat *
          Arithmetic.number true r.width.bits b.toNat) m after) ∧
    (∀ signed r k t, l.instruction = some (.multiply signed (.register r)) → ¬r.InPair r.width →
      m.get r ≠ 0 → after.inCode = true → after.locate = .ok k →
      k.instruction = some (.divide signed (.register r)) → t.disassemble = false →
      (after.run t true).stop = .step ∧
      (after.run t true).machine.get (.accumulator r.width) = m.get (.accumulator r.width) ∧
      (after.run t true).machine.get (.upper r.width) = 0) := by
  intro past after
  refine ⟨fun signed source b hi hb => run_multiply hd hc hl hi hb,
    fun dst src factor a b hi ha hb => run_multiplyInto hd hc hl hi ha hb,
    fun signed r k t hi hr h0 hc' hk hi' hd' => ?_⟩
  have hw : r.width.bytes ≤ 8 := ((Located.at?_spans hl).wellFormed _ hi).operand_width
    (o := .register r) (by simp [Instruction.operands])
  obtain ⟨-, -, hmultiplied⟩ := run_multiply hd hc hl hi rfl
  have hsame : after.get r = m.get r := hmultiplied.others r hr
  have hwide : after.wide signed r.width =
      m.number signed (.accumulator r.width) * after.number signed r := by
    unfold number
    rw [hsame]
    exact hmultiplied.exact
  have hlt (n : Machine) : (n.get (.accumulator r.width)).toNat < 2 ^ r.width.bits :=
    get_lt (r := .accumulator r.width) hw rfl n
  have hfits : Fits signed r.width.bits (m.number signed (.accumulator r.width)) :=
    number_fits r.width.bits_pos (hlt m)
  obtain ⟨hstop, hlow, hhigh⟩ := run_divide_product hd' hc' hk hi' (hsame ▸ h0) hfits hwide
  refine ⟨hstop, UInt64.toNat_inj.1 ?_, UInt64.toNat_inj.1 ?_⟩
  · exact number_injective r.width.bits_pos (hlt _) (hlt m) hlow
  · have hupper := get_lt hw (upper_width r.width) (after.run t true).machine
    unfold number at hhigh
    rw [upper_width] at hhigh
    exact (number_eq_zero r.width.bits_pos hupper).1 hhigh

/-- The accumulator times a register, and the product divided by the register. -/
def multipliedBack : Machine :=
  ((ofCode [0xF7, 0xE1, 0xF7, 0xF1]).set (.accumulator .dword) 0xFFFFFFFF).set (.counter .dword) 16

/-- A register times -10. -/
def tenfold : Machine := (ofCode [0x6B, 0xC1, 0xF6]).set (.counter .dword) 0x70000000

theorem multipliedBack_multiplies :
    ((multipliedBack.run .execute true).machine.wide false .dword = 0xFFFFFFFF0 ∧
      (multipliedBack.run .execute true).machine.flags.overflow = some true ∧
      ((multipliedBack.run .execute true).machine.run .execute true).machine.get
        (.accumulator .dword) = 0xFFFFFFFF) ∧
    ((tenfold.run .execute true).machine.get (.accumulator .dword)).toNat =
      (-10 * 0x70000000 : Int) % 2 ^ 32 := by
  constructor
  · have hl : multipliedBack.locate = .ok ⟨0x1000, {}, .oneByte, 0xF7,
        some (.multiply false (.register ⟨.general, 1, .dword, false⟩)), 0x1002⟩ := by rfl
    have hk : (multipliedBack.run .execute true).machine.locate = .ok ⟨0x1002, {}, .oneByte, 0xF7,
        some (.divide false (.register ⟨.general, 1, .dword, false⟩)), 0x1004⟩ := by rfl
    obtain ⟨hmultiply, -, hback⟩ := run_multiplies (s := .execute) rfl (by rfl) hl
    obtain ⟨-, -, hmultiplied⟩ := hmultiply false _ 16 rfl (by rfl)
    obtain ⟨-, haccumulator, -⟩ :=
      hback false _ _ .execute rfl (by decide +kernel) (by decide +kernel) (by rfl) hk rfl rfl
    have hoverflow := congrArg Flags.overflow hmultiplied.flags
    have hproduct : multipliedBack.number false (.accumulator .dword) *
        Arithmetic.number false 32 (16 : UInt64).toNat = 0xFFFFFFFF0 := by decide +kernel
    exact ⟨hmultiplied.exact.trans hproduct, hoverflow.trans (by decide +kernel),
      haccumulator.trans (by rfl)⟩
  · have hl : tenfold.locate = .ok ⟨0x1000, {}, .oneByte, 0x6B,
        some (.multiplyInto (.register ⟨.general, 0, .dword, false⟩)
          (.register ⟨.general, 1, .dword, false⟩)
          (some (.immediate ⟨0xFFFFFFF6, .dword, false⟩))), 0x1003⟩ := by rfl
    obtain ⟨-, hmultiplyInto, -⟩ := run_multiplies (s := .execute) rfl (by rfl) hl
    obtain ⟨r, hr, -, -, -, -, hinto⟩ := hmultiplyInto _ _ _ 0x70000000 0xFFFFFFF6 rfl (by rfl) (by rfl)
    cases hr
    exact hinto.low.trans (by decide +kernel)

end Machine

end LongMode
