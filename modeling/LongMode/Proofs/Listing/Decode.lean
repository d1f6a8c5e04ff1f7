import LongMode.Listing
import LongMode.Proofs.Memory
import LongMode.Proofs.Run.Step
/-!
The line decoded at an address. It depends on the bytes that it covers, and where no instruction is
encoded on the byte behind them too; a write that touches none of these leaves it as it is.
-/

namespace LongMode

/-- The marks of a line tell what stands there. The mark of the instruction pointer is not among
them. -/
theorem Machine.lineFor_contains (m : Machine) (l : Located) :
    (m.lineFor l).info.contains .invalid = l.instruction.isNone ∧
    (m.lineFor l).info.contains .breakpoint = m.isBreakpoint l.start ∧
    (m.lineFor l).info.contains .ipHere = false := by
  unfold lineFor
  cases l.instruction <;> cases m.isBreakpoint l.start <;>
    simp only [Bool.false_eq_true, if_true, if_false, Option.isNone_none, Option.isNone_some] <;>
    decide

theorem Machine.lineFor_contains_invalid (m : Machine) (l : Located) :
    (m.lineFor l).info.contains .invalid = l.instruction.isNone := (m.lineFor_contains l).1

namespace Listing

variable {m n : Machine} {a p : UInt64} {bytes : List UInt8} {line : Line}

theorem decode?_eq (m : Machine) (a : UInt64) : decode? m a =
    if m.memory.inCode a then
      match Located.at? m.memory.readByte a with
      | .ok l => some (m.lineFor l)
      | .error _ => none
    else none := by
  unfold decode?
  rw [Machine.run_single]
  change (Run.status (if m.memory.inCode a = true then _ else _)).lines.head? = _
  by_cases hc : m.memory.inCode a = true
  · rw [if_pos hc, if_pos hc]
    cases hl : Located.at? m.memory.readByte a with
    | error h =>
      have hl : ({ m with ip := a } : Machine).locate = .error h := hl
      have he := (Machine.step_of_error (s := .listing) hl).1
      simp [Run.status, Progress.after, he]
    | ok l =>
      have hl : ({ m with ip := a } : Machine).locate = .ok l := hl
      rw [Machine.step_listing (s := .listing) hl rfl]
      rfl
  · rw [if_neg hc, if_neg hc]
    rfl

theorem decode?_outside (h : m.memory.inCode a = false) : decode? m a = none := by
  rw [decode?_eq, if_neg (by simp [h])]

theorem located_of_decode? (h : decode? m p = some line) :
    m.memory.inCode p = true ∧
      ∃ l, Located.at? m.memory.readByte p = .ok l ∧ line = m.lineFor l := by
  rw [decode?_eq] at h
  split_ifs at h with hc
  cases hl : Located.at? m.memory.readByte p with
  | error e => rw [hl] at h; cases h
  | ok l =>
    rw [hl] at h
    cases h
    exact ⟨hc, l, rfl, rfl⟩

theorem inCode_of_decode? (h : decode? m p = some line) : m.memory.inCode p = true :=
  (located_of_decode? h).1

theorem not_inCode_of_codeEnd_le (h : m.memory.codeEnd ≤ p) : m.memory.inCode p = false := by
  rw [Bool.eq_false_iff, ne_eq, Memory.inCode_iff]
  exact fun hc => UInt64.not_lt.2 h hc.2

theorem lt_codeEnd_of_inCode (h : m.memory.inCode p = true) : p < m.memory.codeEnd :=
  (Memory.inCode_iff.1 h).2

/-- No encoding in the program runs past the last address. -/
def Straight (m : Machine) : Prop := ∀ p l, m.memory.inCode p = true →
  Located.at? m.memory.readByte p = .ok l → p.toNat + l.size m.memory.readByte < 2 ^ 64

/-- It is enough that some byte behind the program is no modifier, and clear of the last address. -/
theorem straight_of_stop {q : UInt64} (hq : m.memory.codeEnd ≤ q) (hlt : q.toNat + 11 < 2 ^ 64)
    (hb : ∀ byte, m.memory.readByte q = .ok byte → Modifiers.isModifier byte = false) :
    Straight m := by
  intro p l hc hl
  have hbound := (Located.at?_spans hl).bounded
  have hp := UInt64.lt_iff_toNat_lt.1 (lt_codeEnd_of_inCode hc)
  rw [UInt64.le_iff_toNat_le] at hq
  have hcount : Modifiers.count m.memory.readByte p ≤ q.toNat - p.toNat := by
    refine Modifiers.countUpTo_le _ _ _ _ fun byte h => hb byte ?_
    have hpq : p + UInt64.ofNat (q.toNat - p.toNat) = q := by
      apply UInt64.toNat_inj.1
      rw [UInt64.toNat_add, UInt64.toNat_ofNat']
      omega
    rwa [hpq] at h
  omega

/-- What stands behind a line: an encoding of `n` bytes at its address. -/
structure Encoded (m : Machine) (p : UInt64) (line : Line) (l : Located) (n : Nat) : Prop where
  spans : Located.Spans m.memory.readByte p n l
  inCode : m.memory.inCode p = true
  address : line.address = p
  stop : line.stop.toNat = p.toNat + n
  line : line = m.lineFor l

theorem lineFor_address (m : Machine) (l : Located) : (m.lineFor l).address = l.start := by
  unfold Machine.lineFor
  cases l.instruction <;> rfl

theorem lineFor_length (m : Machine) (l : Located) : (m.lineFor l).length = l.length := by
  unfold Machine.lineFor
  cases l.instruction <;> rfl

theorem lineFor_stop (m : Machine) (l : Located) : (m.lineFor l).stop = l.next := by
  have h : l.start + (l.next - l.start) = l.next := by
    rw [UInt64.add_comm, UInt64.sub_add_cancel]
  unfold Machine.lineFor Line.stop Located.length
  cases l.instruction <;> exact h

theorem encoded_of_located {l : Located} (hc : m.memory.inCode p = true)
    (hl : Located.at? m.memory.readByte p = .ok l)
    (hlt : p.toNat + l.size m.memory.readByte < 2 ^ 64) :
    Encoded m p (m.lineFor l) l (l.size m.memory.readByte) := by
  have hspans := Located.at?_spans hl
  refine ⟨hspans, hc, ?_, ?_, rfl⟩
  · rw [lineFor_address, hspans.start]
  · rw [lineFor_stop, hspans.next, UInt64.toNat_add, UInt64.toNat_ofNat']
    omega

theorem Encoded.length {l : Located} {n : Nat} (he : Encoded m p line l n) :
    line.length.toNat = n := by
  have hstop := he.stop
  have hlt := line.stop.toNat_lt
  rw [he.line, lineFor_length, Located.length, he.spans.next, he.spans.start, UInt64.add_comm,
    UInt64.add_sub_cancel, UInt64.toNat_ofNat']
  omega

theorem encoded_of_decode? (hs : Straight m) (h : decode? m p = some line) :
    ∃ l n, Encoded m p line l n := by
  obtain ⟨hc, l, hl, rfl⟩ := located_of_decode? h
  exact ⟨l, _, encoded_of_located hc hl (hs p l hc hl)⟩

theorem lt_stop_of_decode? (hs : Straight m) (h : decode? m p = some line) : p < line.stop := by
  obtain ⟨l, n, he⟩ := encoded_of_decode? hs h
  have hn := he.spans.nonempty
  have hstop := he.stop
  rw [UInt64.lt_iff_toNat_lt]
  omega

theorem address_of_decode? (h : decode? m p = some line) : line.address = p := by
  obtain ⟨-, l, hl, rfl⟩ := located_of_decode? h
  rw [lineFor_address]
  exact (Located.at?_spans hl).start

/-- A machine that agrees with `m` on the program's place, the breakpoints and the bytes looked at
decodes the same line. -/
theorem decode?_congr (hs : Straight m) (hentry : n.memory.entry = m.memory.entry)
    (hend : n.memory.codeEnd = m.memory.codeEnd) (hbreak : n.breakpoints = m.breakpoints)
    (h : decode? m p = some line)
    (hread : ∀ x, p ≤ x → x ≤ line.stop → n.memory.readByte x = m.memory.readByte x) :
    decode? n p = some line := by
  obtain ⟨l, k, he⟩ := encoded_of_decode? hs h
  have hstop := he.stop
  have hlt := line.stop.toNat_lt
  have hl : Located.at? n.memory.readByte p = .ok l := by
    refine he.spans.congr _ fun i hi => hread _ ?_ ?_
    all_goals
      have hpeeked : Decoder.peeked l.instruction ≤ 1 := by
        unfold Decoder.peeked
        split_ifs <;> omega
      have hx : (p + UInt64.ofNat i).toNat = p.toNat + i := by
        rw [UInt64.toNat_add, UInt64.toNat_ofNat']
        omega
      rw [UInt64.le_iff_toNat_le]
      omega
  have hc : n.memory.inCode p = true := by
    rw [Memory.inCode_iff, hentry, hend]
    exact Memory.inCode_iff.1 he.inCode
  rw [decode?_eq, if_pos hc, hl, he.line]
  unfold Machine.lineFor Machine.isBreakpoint
  rw [hbreak]

section Write

variable (hfit : a.toNat + bytes.length ≤ 2 ^ 64)
include hfit

theorem readByte_write_of_lt {x : UInt64} (hx : x < a) :
    (m.write a bytes).memory.readByte x = m.memory.readByte x := by
  have hx : x.toNat < a.toNat := UInt64.lt_iff_toNat_lt.1 hx
  have hlt := a.toNat_lt
  have hsub : bytes.length ≤ (x - a).toNat := by
    rw [UInt64.toNat_sub]
    omega
  change (m.memory.write a bytes).readByte x = _
  rw [Memory.readByte_write m.memory a x bytes (by omega), List.getElem?_eq_none hsub]
  rfl

theorem readByte_write_of_le {x : UInt64} (hx : a.toNat + bytes.length ≤ x.toNat) :
    (m.write a bytes).memory.readByte x = m.memory.readByte x := by
  have hlt := x.toNat_lt
  have hsub : bytes.length ≤ (x - a).toNat := by
    rw [UInt64.toNat_sub]
    omega
  change (m.memory.write a bytes).readByte x = _
  rw [Memory.readByte_write m.memory a x bytes (by omega), List.getElem?_eq_none hsub]
  rfl

theorem decode?_write_of_stop_lt (hs : Straight m) (h : decode? m p = some line)
    (hstop : line.stop < a) : decode? (m.write a bytes) p = some line := by
  obtain ⟨hentry, hend, -⟩ := Memory.entry_write m.memory a bytes
  refine decode?_congr hs hentry hend rfl h fun x _ hx => ?_
  exact readByte_write_of_lt hfit (UInt64.lt_of_le_of_lt hx hstop)

theorem decode?_write_of_le (hs : Straight m) (hs' : Straight (m.write a bytes))
    (hp : a.toNat + bytes.length ≤ p.toNat) : decode? (m.write a bytes) p = decode? m p := by
  obtain ⟨hentry, hend, -⟩ := Memory.entry_write m.memory a bytes
  have hread (x : UInt64) (hx : p ≤ x) :
      (m.write a bytes).memory.readByte x = m.memory.readByte x :=
    readByte_write_of_le hfit (by rw [UInt64.le_iff_toNat_le] at hx; omega)
  refine Option.ext fun line => ⟨fun h => ?_, fun h => ?_⟩
  · exact decode?_congr hs' hentry.symm hend.symm rfl h fun x hx _ => (hread x hx).symm
  · exact decode?_congr hs hentry hend rfl h fun x hx _ => hread x hx

end Write

end Listing

end LongMode
