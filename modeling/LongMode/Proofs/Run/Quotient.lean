import LongMode.Proofs.Execute.Pair
import LongMode.Proofs.Guarded.Run
/-!
A step that divides. It stops with a fault exactly where the quotient is not defined or has no place
in its half of the accumulator pair, and then nothing has changed; otherwise the pair holds the
quotient and the remainder.
-/

namespace LongMode

open Arithmetic

/-- A division has taken place: the pair holds the quotient and the remainder, and nothing else that
a program observes has changed. -/
structure Divided (signed : Bool) (w : Width) (divisor : Int) (m n : Machine) : Prop where
  exact : m.wide signed w = n.number signed (.accumulator w) * divisor + n.number signed (.upper w)
  small : |n.number signed (.upper w)| < |divisor|
  sign : n.number signed (.upper w) = 0 ∨
    (n.number signed (.upper w)).sign = (m.wide signed w).sign
  flags : n.flags = m.flags
  memory : n.memory = m.memory
  breakpoints : n.breakpoints = m.breakpoints
  others : ∀ r : Register, ¬r.InPair w → n.get r = m.get r

/-- It does not matter to a division where its instruction is. -/
theorem Divided.moved {signed : Bool} {w : Width} {divisor : Int} {m n : Machine} {a : UInt64}
    (h : Divided signed w divisor { m with ip := a } n) : Divided signed w divisor m n :=
  ⟨h.exact, h.small, h.sign, h.flags, h.memory, h.breakpoints, h.others⟩

namespace Machine

variable {s : Settings} {m : Machine} {l : Located} {signed : Bool} {source : Operand} {d : UInt64}

theorem number_of_toNat {w : Width} {r : Register} {n : Nat} (hr : r.width = w)
    (h : (m.get r).toNat = n) : m.number signed r = Arithmetic.number signed w.bits n := by
  rw [← hr, ← h]
  rfl

/-- The quotient and the remainder put into the pair. -/
theorem divided_setPair {w : Width} {divisor quotient remainder : UInt64} (hw : w.bytes ≤ 8)
    (hdivisor : divisor.toNat < w.modulus)
    (h : div signed (m.halves w).1 (m.halves w).2 divisor w = some (quotient, remainder)) :
    Divided signed w (Arithmetic.number signed w.bits divisor.toNat) m
      (Execute.setPair w quotient remainder m) := by
  obtain ⟨⟨hqlt, hq⟩, hrlt, hr⟩ := div_eq_some hw hdivisor h
  obtain ⟨hlow, hhigh⟩ := get_setPair hw m hqlt hrlt
  have hquotient := (number_of_toNat rfl hlow).trans hq
  have hremainder := (number_of_toNat (upper_width w) hhigh).trans hr
  rw [dividend_halves] at hquotient hremainder
  have hzero : Arithmetic.number signed w.bits divisor.toNat ≠ 0 := by
    intro h0
    have hnone : div signed (m.halves w).1 (m.halves w).2 divisor w = none :=
      (div_eq_none hw hdivisor).2 (.inl h0)
    rw [hnone] at h
    cases h
  constructor
  case exact =>
    rw [hquotient, hremainder]
    exact (Int.tdiv_mul_add_tmod _ _).symm
  case small =>
    rw [hremainder, Int.abs_eq_natAbs, Int.abs_eq_natAbs, Int.natAbs_tmod]
    exact_mod_cast Nat.mod_lt _ (Int.natAbs_pos.2 hzero)
  case sign =>
    rw [hremainder, ← Int.sign_eq_zero_iff_zero, Int.sign_tmod]
    split_ifs
    · exact .inl rfl
    · exact .inr rfl
  case others => exact fun r hr => get_setPair_of_not_inPair m hr
  case flags | memory | breakpoints => rw [setPair_eq]

/-- A step that divides, as far as the quotient and the remainder of the words decide it. -/
theorem run_divide_cases (hl : m.locate = .ok l) (hi : l.instruction = some (.divide signed source))
    (hd : s.disassemble = false) (hc : m.inCode = true)
    (hread : Execute.read source { m with ip := l.next } = .ok d) :
    let w := source.width
    (div signed (m.halves w).1 (m.halves w).2 d w = none ∧
      (m.run s true).stop = .fault (.divideError m.ip) ∧ (m.run s true).machine = m) ∨
    ∃ q r, div signed (m.halves w).1 (m.halves w).2 d w = some (q, r) ∧
      (m.run s true).stop = .step ∧
      (m.run s true).machine = Execute.setPair w q r { m with ip := l.next } := by
  intro w
  cases hdiv : div signed (m.halves w).1 (m.halves w).2 d w with
  | none =>
    have hx := Execute.divide_of_none (frameOf s l) hread hdiv
    obtain ⟨hstop, hmachine⟩ := run_of_halted hl hd hi hc (congrArg (Outcome.whole _) hx)
    rw [frameOf, locate_start hl] at hstop
    exact .inl ⟨rfl, hstop, hmachine⟩
  | some result =>
    obtain ⟨q, r⟩ := result
    have hx := Execute.divide_of_some (frameOf s l) hread hdiv
    obtain ⟨hstop, hmachine⟩ := run_of_done hl hd hi hc (congrArg (Outcome.whole _) hx)
    exact .inr ⟨q, r, rfl, hstop, hmachine⟩

/-- A division is exact or faults. -/
theorem run_divides (hl : m.locate = .ok l) (hi : l.instruction = some (.divide signed source))
    (hd : s.disassemble = false) (hc : m.inCode = true)
    (hread : source.read { m with ip := l.next } = .ok d) :
    let w := source.width
    let divisor := Arithmetic.number signed w.bits d.toNat
    let after := (m.run s true).machine
    ((m.run s true).stop = .fault (.divideError m.ip) ↔
      divisor = 0 ∨ ¬Fits signed w.bits ((m.wide signed w).tdiv divisor)) ∧
    ((m.run s true).stop = .fault (.divideError m.ip) → after = m) ∧
    ((m.run s true).stop ≠ .fault (.divideError m.ip) →
      (m.run s true).stop = .step ∧ after.ip = l.next ∧ Divided signed w divisor m after) ∧
    Guard.Runs (Guarded.divide (frameOf s l) signed source { m with ip := l.next })
      (Execute.divide (frameOf s l) signed source { m with ip := l.next }) := by
  intro w divisor after
  have hw : w.bytes ≤ 8 :=
    ((Located.at?_spans hl).wellFormed _ hi).operand_width (by simp [Instruction.operands])
  have hnamed : source.Named :=
    Located.named_of_at? hl hi source (by simp [Instruction.named, Instruction.operands])
  have hread' := Execute.read_of_ok hread
  have hdlt := Execute.read_lt hnamed hread'
  have hnone : div signed (m.halves w).1 (m.halves w).2 d w = none ↔ _ := div_eq_none hw hdlt
  rw [dividend_halves] at hnone
  have hruns : Guard.Runs (Guarded.divide (frameOf s l) signed source { m with ip := l.next }) _ :=
    Guarded.divide_runs signed hw hnamed
  obtain ⟨hdiv, hstop, hmachine⟩ | ⟨q, r, hdiv, hstop, hmachine⟩ :=
    run_divide_cases hl hi hd hc hread'
  · exact ⟨iff_of_true hstop (hnone.1 hdiv), fun _ => hmachine, fun h => absurd hstop h, hruns⟩
  · have hfault : (m.run s true).stop ≠ .fault (.divideError m.ip) := by simp [hstop]
    have hdivided : Divided signed w divisor m after := by
      change Divided _ _ _ _ (m.run s true).machine
      rw [hmachine]
      exact (divided_setPair (m := { m with ip := l.next }) hw hdlt hdiv).moved
    refine ⟨iff_of_false hfault fun h => ?_, fun h => absurd h hfault,
      fun _ => ⟨hstop, ?_, hdivided⟩, hruns⟩
    · rw [hnone.2 h] at hdiv
      cases hdiv
    · change (m.run s true).machine.ip = _
      rw [hmachine, setPair_eq]

def negativeDividend : Machine :=
  (((ofCode [0xF7, 0xF9]).set (.accumulator .dword) 0xFFFFFFF9).set (.data .dword) 0xFFFFFFFF).set
    (.counter .dword) 2

/-- The word whose upper byte is -1 and whose lower byte is zero, divided by its upper byte. -/
def dividedByUpper : Machine := (ofCode [0xF6, 0xFC]).set (.accumulator .word) 0xFF00

theorem negativeDividend_divides :
    ((negativeDividend.run .execute true).stop = .step ∧
      Divided true .dword 2 negativeDividend (negativeDividend.run .execute true).machine ∧
      (negativeDividend.run .execute true).machine.get (.accumulator .dword) = 0xFFFFFFFD ∧
      (negativeDividend.run .execute true).machine.get (.data .dword) = 0xFFFFFFFF) ∧
    dividedByUpper.wide true .byte = -256 ∧
    (dividedByUpper.run .execute true).stop = .fault (.divideError 0x1000) ∧
    (dividedByUpper.run .execute true).machine = dividedByUpper := by
  constructor
  · have hl : negativeDividend.locate = .ok ⟨0x1000, {}, .oneByte, 0xF7,
        some (.divide true (.register ⟨.general, 1, .dword, false⟩)), 0x1002⟩ := by rfl
    have hstop : (negativeDividend.run .execute true).stop = .step := by rfl
    obtain ⟨-, -, hdivides, -⟩ := run_divides (s := .execute) (d := 2) hl rfl rfl (by rfl) (by rfl)
    obtain ⟨-, -, hdivided⟩ := hdivides (by rw [hstop]; nofun)
    have hdivisor : Arithmetic.number true 32 (2 : UInt64).toNat = 2 := by decide
    rw [Operand.width, Width.bits, Width.bytes, hdivisor] at hdivided
    exact ⟨hstop, hdivided, by rfl, by rfl⟩
  · have hl : dividedByUpper.locate = .ok ⟨0x1000, {}, .oneByte, 0xF6,
        some (.divide true (.register .highAccumulator)), 0x1002⟩ := by rfl
    have hwide : dividedByUpper.wide true .byte = -256 := by decide +kernel
    obtain ⟨hfault, hsame, -⟩ := run_divides (s := .execute) (d := 0xFF) hl rfl rfl (by rfl) (by rfl)
    -- the quotient is 256
    have hstop := hfault.2 (.inr (by decide +kernel))
    exact ⟨hwide, hstop, hsame hstop⟩

end Machine

end LongMode
