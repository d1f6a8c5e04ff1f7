import LongMode.Proofs.Instruction.Text
import LongMode.Proofs.Listing.Chain
/-!
The listing of a program tiles it: the lines stand one behind the other from the entry on, and the
run that lists them ends behind the program or, in strict memory, in front of an instruction that
cannot be read. The budget of such a run is never what ends it, for want of bytes to list.
-/

namespace LongMode.Listing

variable {m : Machine} {a b p : UInt64} {line : Line} {lines : List Line}

/-- A line of one byte is a byte that was written: a byte that was not is the zero of an opcode with
an operand. -/
theorem written_of_short (hs : StraightFrom m a) (hp : Reaches m a p)
    (hd : decode? m p = some line) (hshort : line.stop.toNat = p.toNat + 1) :
    p ∈ m.memory.cells := by
  by_contra hnot
  obtain ⟨l, hl, he⟩ := hs.encoded hp hd
  have hstop := he.stop
  obtain ⟨byte, hbyte⟩ := he.spans.readable 0 (by omega)
  rw [show p + UInt64.ofNat 0 = p from UInt64.add_zero p] at hbyte
  have hzero : m.memory.readByte p = .ok 0 := by
    rw [hbyte, ← Memory.peek_of_readByte hbyte, Memory.peek_of_not_written hnot]
  have htwo := Located.two_le_size_of_zero hl hzero
  omega

/-- There are fewer lines than a run without a budget has steps. -/
theorem Chain.length_lt (hs : StraightFrom m a) (h : Chain m a lines b)
    (hroom : m.memory.cells.size < Machine.unlimited) : lines.length < Machine.unlimited := by
  by_contra hmany
  have htiles := h.tiles hs
  have hfull : b.toNat ≤ a.toNat + lines.length := by
    have hb := b.toNat_lt
    have hunlimited : Machine.unlimited = 2 ^ 64 - 1 := rfl
    omega
  have hwritten : ∀ c ∈ lines.map Line.address, c ∈ m.memory.cells := by
    intro c hc
    obtain ⟨line, hmem, rfl⟩ := List.mem_map.1 hc
    obtain ⟨hreaches, hd⟩ := h.mem hmem
    exact written_of_short hs hreaches hd (htiles.stop_of_full hfull hmem)
  have hdistinct : (lines.map Line.address).Nodup :=
    htiles.sorted.imp UInt64.ne_of_lt
  have hle := Memory.length_le_cells hdistinct hwritten
  rw [List.length_map] at hle
  omega

theorem codeEnd_le_of_not_inCode (hle : m.memory.entry ≤ a) (hc : m.memory.inCode a = false) :
    m.memory.codeEnd ≤ a := by
  rw [Bool.eq_false_iff, ne_eq, Memory.inCode_iff] at hc
  by_contra hlt
  exact hc ⟨hle, UInt64.not_le.1 hlt⟩

theorem isMapped_of_readable {n : Nat} (hs : m.memory.strict = true)
    (h : Fetch.Readable m.memory.readByte a n) :
    ∀ i < n, m.memory.isMapped (a + UInt64.ofNat i) = true := by
  intro i hi
  obtain ⟨byte, hbyte⟩ := h i hi
  exact Memory.isMapped_of_readByte hs hbyte

theorem tokens_of_decode? (hd : decode? m a = some line) : line.tokens ≠ [] := by
  obtain ⟨-, l, -, rfl⟩ := located_of_decode? hd
  unfold Machine.lineFor
  rcases l.instruction with _ | i
  · exact List.cons_ne_nil _ _
  · exact i.tokens_ne_nil

/-- The instruction at `a` is in the program, but strict memory has only its first `n` bytes. -/
structure CutShort (m : Machine) (a : UInt64) (n : Nat) : Prop where
  strict : m.memory.strict = true
  inCode : m.memory.inCode a = true
  mapped : ∀ i < n, m.memory.isMapped (a + UInt64.ofNat i) = true
  unmapped : m.memory.isMapped (a + UInt64.ofNat n) = false

/-- With budget left, a run that lists ends behind the program or at an instruction cut short. -/
theorem Stops.ends {limit count : Nat} {stop : StopReason} (h : Stops m limit count a stop)
    (hlt : count < limit) (hle : m.memory.entry ≤ a) :
    stop = .endOfCode ∧ m.memory.codeEnd ≤ a ∨
      ∃ n, CutShort m a n ∧ stop = .fault (.unmappedMemory (a + UInt64.ofNat n)) := by
  cases h with
  | spent h => omega
  | outside hc => exact .inl ⟨rfl, codeEnd_le_of_not_inCode hle hc⟩
  | unread hc hl =>
    obtain ⟨n, g, hg, herror, hreadable⟩ := Located.at?_first_error hl
    cases hg
    obtain ⟨hstrict, hunmapped, rfl⟩ := Memory.readByte_error herror
    exact .inr ⟨n, ⟨hstrict, hc, isMapped_of_readable hstrict hreadable, hunmapped⟩, rfl⟩

/-- In strict memory the bytes of a line are mapped. -/
theorem isMapped_of_decode? (hs : StraightFrom m a)
    (hp : Reaches m a p) (hd : decode? m p = some line) (hstrict : m.memory.strict = true) :
    ∀ i < line.length.toNat, m.memory.isMapped (p + UInt64.ofNat i) = true := by
  obtain ⟨l, -, he⟩ := hs.encoded hp hd
  rw [he.length]
  exact isMapped_of_readable hstrict he.spans.readable

/-- What the listing of a whole program is. -/
structure Tiling (m : Machine) (r : Run) : Prop where
  /-- From the entry to the final instruction pointer. -/
  tiles : Tiles m.memory.entry r.status.lines r.status.ip
  begins : m.memory.strict = false → r.status.lines ≠ []
  lengths : ∀ line ∈ r.status.lines, 1 ≤ line.length
  starts : ∀ line ∈ r.status.lines, m.memory.inCode line.address = true
  tokens : ∀ line ∈ r.status.lines, line.tokens ≠ []
  executed : r.status.executed = r.status.lines.length
  /-- In strict memory no line is cut short. -/
  mapped : m.memory.strict = true → ∀ line ∈ r.status.lines, ∀ i < line.length.toNat,
    m.memory.isMapped (line.address + UInt64.ofNat i) = true
  ends : r.status.stop = .endOfCode ∧ m.memory.codeEnd ≤ r.status.ip ∨
    ∃ n, CutShort m r.status.ip n ∧
      r.status.stop = .fault (.unmappedMemory (r.status.ip + UInt64.ofNat n))

/-- A run that lists a program tiles it. The last hypothesis excludes memories of `2^64 - 1` written
bytes, which no host can hold: listed byte by byte, they would use up the steps of the run. -/
theorem run_tiles (hip : m.ip = m.memory.entry) (hcode : m.memory.entry < m.memory.codeEnd)
    (hs : StraightFrom m m.memory.entry) (hroom : m.memory.cells.size < Machine.unlimited) :
    Tiling m (m.run .listing false) := by
  have hrun : m.run .listing false = Machine.runOn .listing Machine.unlimited
      { m with ip := m.memory.entry } {} := by
    rw [← hip]
    rfl
  obtain ⟨lines, hfound⟩ := runOn_found m Machine.unlimited m.memory.entry {}
  rw [← hrun] at hfound
  have hlines : (m.run .listing false).status.lines = lines :=
    hfound.listed.trans (List.nil_append _)
  have htiles := hfound.chain.tiles hs
  have hcount := hfound.chain.length_lt hs hroom
  rw [← hlines] at hfound htiles hcount
  have hends := hfound.stops.ends hcount htiles.le
  refine
    { tiles := htiles
      begins := fun hlenient hnone => ?_
      lengths := fun line hmem => htiles.length_pos hmem
      starts := fun line hmem => inCode_of_decode? (hfound.chain.mem hmem).2
      tokens := fun line hmem => tokens_of_decode? (hfound.chain.mem hmem).2
      executed := hfound.executed.trans (Nat.zero_add _)
      mapped := fun hstrict line hmem => ?_
      ends := hends }
  · -- without lines the run would end at the entry
    rw [hnone] at htiles
    rcases hends with ⟨-, hend⟩ | ⟨n, hcut, -⟩
    · rw [← (show m.memory.entry = _ from htiles)] at hend
      exact UInt64.lt_irrefl _ (UInt64.lt_of_lt_of_le hcode hend)
    · rw [hcut.strict] at hlenient
      cases hlenient
  · obtain ⟨hreaches, hd⟩ := hfound.chain.mem hmem
    exact isMapped_of_decode? hs hreaches hd hstrict

/-- `NOP`, and a `MOV` that lacks its last two bytes. -/
def cutMove : Machine := (Machine.ofCode [0x90, 0xB8, 0x01, 0x00]).setStrict true

theorem cutMove_tiles :
    Tiling cutMove (cutMove.run .listing false) ∧
    (cutMove.run .listing false).status.stop = .fault (.unmappedMemory 0x1004) ∧
    (cutMove.run .listing false).status.ip = 0x1001 := by
  have hs : Straight cutMove :=
    straight_of_stop (q := 0x1004) (by decide) (by decide) fun byte h => by
      have hunmapped : cutMove.memory.readByte 0x1004 = .error (.unmappedMemory 0x1004) := by rfl
      rw [hunmapped] at h
      cases h
  refine ⟨run_tiles (by rfl) (by decide) (hs.straightFrom _) (by decide +kernel), by rfl, by rfl⟩

end LongMode.Listing
