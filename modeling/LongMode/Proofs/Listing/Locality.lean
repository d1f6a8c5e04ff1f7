import LongMode.Proofs.Run.Boundary
/-!
Decoding is local. What a line of the listing says about a valid instruction is decided by the bytes
that the line covers. Groups of opcodes look at a byte before they take it, but wherever they find an
instruction they do take it.
-/

namespace LongMode

namespace Memory

variable {m : Memory} {a : UInt64}

/-- The bytes of a memory without regard to what is mapped. -/
def bytes (m : Memory) : Fetch := fun a => .ok (m.peek a)

theorem readByte_extends_bytes (m : Memory) : Fetch.Extends m.readByte m.bytes := by
  intro a b h
  unfold bytes
  rw [peek_of_readByte h]

end Memory

namespace Listing

variable {m n : Machine} {a : UInt64} {line : Line}

theorem lineFor_tokens (m n : Machine) (l : Located) :
    (m.lineFor l).tokens = (n.lineFor l).tokens := by
  unfold Machine.lineFor
  cases l.instruction <;> rfl

def span (m : Machine) (a : UInt64) : Nat :=
  match Located.at? m.memory.readByte a with
  | .ok l => l.size m.memory.readByte
  | .error _ => 0

theorem span_of_at? {l : Located} (hl : Located.at? m.memory.readByte a = .ok l) :
    span m a = l.size m.memory.readByte := by
  unfold span
  rw [hl]

theorem length_of_decode? (hd : decode? m a = some line) :
    line.length = UInt64.ofNat (span m a) := by
  obtain ⟨-, l, hl, rfl⟩ := located_of_decode? hd
  have hspans := Located.at?_spans hl
  rw [lineFor_length, span_of_at? hl, Located.length, hspans.next, hspans.start, UInt64.add_comm,
    UInt64.add_sub_cancel]

/-- A valid instruction stands wherever its own bytes do. -/
theorem at?_of_bytes {g : Fetch} {l : Located} (hl : Located.at? m.memory.readByte a = .ok l)
    (hvalid : l.instruction.isSome)
    (hbytes : ∀ i < span m a, g (a + UInt64.ofNat i) = m.memory.bytes (a + UInt64.ofNat i)) :
    Located.at? g a = .ok l := by
  have hext := m.memory.readByte_extends_bytes
  have hspans := Located.at?_spans (Located.at?_extend hext hl)
  rw [Located.size_extend hext hl, ← span_of_at? hl] at hspans
  apply hspans.congr
  intro i hi
  apply hbytes i
  -- nothing but the bytes of the instruction has been looked at
  have hpeeked : Decoder.peeked l.instruction = 0 := by
    unfold Decoder.peeked
    rw [if_neg (by simp [Option.isSome_iff_ne_none.1 hvalid])]
  omega

/-- Where the bytes of a valid line can be read in another machine, the same line is decoded there,
whatever else the two machines hold. -/
theorem decode?_local (hd : decode? m a = some line)
    (hvalid : line.info.contains .invalid = false) (hc : n.memory.inCode a = true)
    (hbytes : ∀ i < span m a, n.memory.readByte (a + UInt64.ofNat i) =
      .ok (m.memory.peek (a + UInt64.ofNat i))) :
    line.length = UInt64.ofNat (span m a) ∧
    ∃ other, decode? n a = some other ∧ other.tokens = line.tokens ∧
      other.length = line.length ∧ other.info.contains .invalid = false := by
  refine ⟨length_of_decode? hd, ?_⟩
  obtain ⟨-, l, hl, rfl⟩ := located_of_decode? hd
  rw [Machine.lineFor_contains_invalid, Option.isNone_eq_false_iff] at hvalid
  have hn : Located.at? n.memory.readByte a = .ok l := at?_of_bytes hl hvalid hbytes
  refine ⟨n.lineFor l, ?_, lineFor_tokens n m l, ?_, ?_⟩
  · rw [decode?_eq, if_pos hc, hn]
  · rw [lineFor_length, lineFor_length]
  · rw [Machine.lineFor_contains_invalid, Option.isNone_eq_false_iff]
    exact hvalid

/-- `POP RAX`, encoded in a group that looks at the second byte first. -/
def groupPop : Machine := .ofCode [0x8F, 0xC0, 0x90]

/-- The same two bytes at the end of a program in strict memory, with a breakpoint on them. -/
def lastPop : Machine :=
  (((Machine.ofCode [0x8F, 0xC0]).setStrict true).setBreakpoint 0x1000).set .stackPointer 0x10

theorem groupPop_local :
    ∃ line, decode? groupPop 0x1000 = some line ∧ line.length = 2 ∧
      line.info.contains .invalid = false ∧
      ∃ other, decode? lastPop 0x1000 = some other ∧ other.tokens = line.tokens ∧
        other.length = line.length ∧ other.info.contains .invalid = false := by
  have hd : decode? groupPop 0x1000 = some ⟨0x1000, 2, ["POP", "RAX"], .none⟩ := by rfl
  have hspan : span groupPop 0x1000 = 2 := by rfl
  have hbytes : ∀ i < span groupPop 0x1000, lastPop.memory.readByte (0x1000 + UInt64.ofNat i) =
      .ok (groupPop.memory.peek (0x1000 + UInt64.ofNat i)) := by
    intro i hi
    rw [hspan] at hi
    interval_cases i <;> rfl
  obtain ⟨-, hother⟩ := decode?_local hd (by decide) (by rfl) hbytes
  exact ⟨_, hd, rfl, by decide, hother⟩

end Listing

end LongMode
