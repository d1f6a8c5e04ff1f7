import LongMode.Proofs.Execute.Target
import LongMode.Proofs.Memory.BitString
/-!
Memory as a map from addresses modulo 2^64 to bytes. What is written to a range of addresses stands
there, whether memory is strict or not, and all other bytes stay. Words at one address overlap byte by
byte, the lowest byte first. Strict memory refuses a range for its first byte that is not mapped.
-/

namespace LongMode

/-- A result that is only passed on does not fail by itself. -/
theorem error_bind_pure_iff {ε α β : Type} {r : Except ε α} {g : α → β} {e : ε} :
    (r >>= fun x => pure (g x)) = .error e ↔ r = .error e := by
  cases r with
  | ok x => exact ⟨nofun, nofun⟩
  | error d =>
    constructor
    · intro h
      cases h
      rfl
    · intro h
      cases h
      rfl

def LittleEndian.byteAt (v : UInt64) (i : Nat) : Nat := v.toNat / 2 ^ (8 * i) % 2 ^ 8

namespace Memory

variable {m : Memory} {a x : UInt64} {bytes : List UInt8} {f : Fault} {k : Nat}

/-- The address was written, or a segment holds it. -/
def Mapped (m : Memory) (x : UInt64) : Prop :=
  x ∈ m.cells ∨ ∃ s ∈ m.segments, s.start ≤ x ∧ x < s.stop

/-- `n` has these bytes from `a` on, and all else as it is in `m`. -/
structure Writes (m : Memory) (a : UInt64) (bytes : List UInt8) (n : Memory) : Prop where
  dump : n.dump a bytes.length = bytes
  read : ∀ strict, ({ n with strict } : Memory).read a bytes.length = .ok bytes
  mapped : ∀ i < bytes.length, n.isMapped (a + UInt64.ofNat i) = true
  outside : ∀ x, (∀ i < bytes.length, x ≠ a + UInt64.ofNat i) →
    n.peek x = m.peek x ∧ n.readByte x = m.readByte x ∧ n.isMapped x = m.isMapped x

/-- What a word of width `w` is at an address where `x` was written at width `v`. -/
structure Overlaps (m : Memory) (a : UInt64) (v w : Width) (x : UInt64) : Prop where
  /-- It has the low bytes of `x`, and above them the old bytes. -/
  word : ∀ y, (m.writeWord a v x).readWord a w = .ok y → y.toNat < 2 ^ w.bits ∧
    ∀ i < w.bytes, LittleEndian.byteAt y i =
      if i < v.bytes then LittleEndian.byteAt x i else (m.peek (a + UInt64.ofNat i)).toNat
  /-- Only old bytes can keep it from being read, where strict memory does not map them. -/
  readable : (∃ y, (m.writeWord a v x).readWord a w = .ok y) ↔
    (m.strict = true → ∀ i < w.bytes, v.bytes ≤ i → m.Mapped (a + UInt64.ofNat i))

/-- What reading `k` bytes from `a` on comes to. -/
structure Reading (m : Memory) (a : UInt64) (k : Nat) : Prop where
  given : ∀ bytes, m.read a k = .ok bytes → bytes = m.dump a k
  refused : (∃ f, m.read a k = .error f) ↔
    m.strict = true ∧ ∃ i < k, ¬ m.Mapped (a + UInt64.ofNat i)
  /-- The reason is the first byte that is not mapped. -/
  first : ∀ f, m.read a k = .error f ↔ m.strict = true ∧ ∃ i < k,
    f = .unmappedMemory (a + UInt64.ofNat i) ∧ ¬ m.Mapped (a + UInt64.ofNat i) ∧
      ∀ j < i, m.Mapped (a + UInt64.ofNat j)
  /-- A word is refused as its bytes are. -/
  word : ∀ w : Width, w.bytes = k → w.bytes ≤ 8 →
    ∀ f, m.readWord a w = .error f ↔ m.read a k = .error f

/-- The laws of memory as a map from addresses to bytes. -/
structure ByteMap (m : Memory) : Prop where
  writes : ∀ a bytes, bytes.length ≤ 2 ^ 64 → m.Writes a bytes (m.write a bytes)
  words : ∀ a v w x, v.bytes ≤ 8 → w.bytes ≤ 8 → m.Overlaps a v w x
  reads : ∀ a k, m.Reading a k

/-! What is mapped. -/

theorem isMapped_iff : m.isMapped x = true ↔ m.Mapped x := by
  unfold isMapped Mapped
  simp only [Bool.or_eq_true, Std.ExtTreeMap.contains_iff_mem, List.any_eq_true, Segment.contains,
    Bool.and_eq_true, decide_eq_true_eq]

theorem readByte_error_iff : m.readByte x = .error f ↔
    m.strict = true ∧ ¬ m.Mapped x ∧ f = .unmappedMemory x := by
  constructor
  · intro h
    obtain ⟨hstrict, hunmapped, hf⟩ := readByte_error h
    refine ⟨hstrict, fun hmapped => ?_, hf⟩
    rw [isMapped_iff.2 hmapped] at hunmapped
    cases hunmapped
  · rintro ⟨hstrict, hunmapped, rfl⟩
    rw [← isMapped_iff, Bool.not_eq_true] at hunmapped
    unfold readByte
    rw [hstrict, hunmapped]
    rfl

theorem readByte_ok_iff : (∃ b, m.readByte x = .ok b) ↔ (m.strict = true → m.Mapped x) := by
  constructor
  · rintro ⟨b, hb⟩ hstrict
    exact isMapped_iff.1 (isMapped_of_readByte hstrict hb)
  · intro h
    cases hb : m.readByte x with
    | ok b => exact ⟨b, rfl⟩
    | error f =>
      obtain ⟨hstrict, hunmapped, -⟩ := readByte_error_iff.1 hb
      exact absurd (h hstrict) hunmapped

/-! Ranges of bytes. -/

/-- A read fails at the first byte that cannot be read. -/
theorem read_error_iff : m.read a k = .error f ↔ ∃ i < k,
    m.readByte (a + UInt64.ofNat i) = .error f ∧ Fetch.Readable m.readByte a i := by
  induction k generalizing a with
  | zero =>
    constructor
    · intro h
      cases h
    · rintro ⟨i, hi, -⟩
      omega
  | succ k ih =>
    have hzero : a + UInt64.ofNat 0 = a := UInt64.add_zero a
    rw [read]
    cases hb : m.readByte a with
    | error g =>
      constructor
      · intro h
        cases h
        exact ⟨0, by omega, by rwa [hzero], .zero _ _⟩
      · rintro ⟨i, -, hi, hreadable⟩
        rcases i with _ | i
        · rw [hzero, hb] at hi
          cases hi
          rfl
        · obtain ⟨b, hbyte⟩ := hreadable 0 (by omega)
          rw [hzero, hb] at hbyte
          cases hbyte
    | ok b =>
      rw [ok_bind, error_bind_pure_iff, ih]
      constructor
      · rintro ⟨i, hi, herror, hreadable⟩
        rw [add_one_add_ofNat] at herror
        refine ⟨i + 1, by omega, herror, ?_⟩
        rw [Nat.add_comm]
        exact (Fetch.Readable.one hb).append hreadable
      · rintro ⟨i, hi, herror, hreadable⟩
        rcases i with _ | i
        · rw [hzero, hb] at herror
          cases herror
        · refine ⟨i, by omega, by rwa [add_one_add_ofNat], fun j hj => ?_⟩
          rw [add_one_add_ofNat]
          exact hreadable (j + 1) (by omega)

theorem readable_iff : Fetch.Readable m.readByte a k ↔
    (m.strict = true → ∀ i < k, m.Mapped (a + UInt64.ofNat i)) := by
  unfold Fetch.Readable
  constructor
  · intro h hstrict i hi
    exact readByte_ok_iff.1 (h i hi) hstrict
  · intro h i hi
    exact readByte_ok_iff.2 fun hstrict => h hstrict i hi

theorem read_first_iff : m.read a k = .error f ↔ m.strict = true ∧ ∃ i < k,
    f = .unmappedMemory (a + UInt64.ofNat i) ∧ ¬ m.Mapped (a + UInt64.ofNat i) ∧
      ∀ j < i, m.Mapped (a + UInt64.ofNat j) := by
  rw [read_error_iff]
  constructor
  · rintro ⟨i, hi, herror, hreadable⟩
    obtain ⟨hstrict, hunmapped, hf⟩ := readByte_error_iff.1 herror
    exact ⟨hstrict, i, hi, hf, hunmapped, readable_iff.1 hreadable hstrict⟩
  · rintro ⟨hstrict, i, hi, hf, hunmapped, hmapped⟩
    exact ⟨i, hi, readByte_error_iff.2 ⟨hstrict, hunmapped, hf⟩, readable_iff.2 fun _ => hmapped⟩

theorem read_refused_iff : (∃ f, m.read a k = .error f) ↔
    m.strict = true ∧ ∃ i < k, ¬ m.Mapped (a + UInt64.ofNat i) := by
  constructor
  · rintro ⟨f, hf⟩
    obtain ⟨hstrict, i, hi, -, hunmapped, -⟩ := read_first_iff.1 hf
    exact ⟨hstrict, i, hi, hunmapped⟩
  · classical
    rintro ⟨hstrict, hunmapped⟩
    obtain ⟨hi, hfirst⟩ := Nat.find_spec hunmapped
    refine ⟨_, read_first_iff.2 ⟨hstrict, Nat.find hunmapped, hi, rfl, hfirst, fun j hj => ?_⟩⟩
    have hleast := Nat.find_min hunmapped hj
    by_contra hno
    exact hleast ⟨by omega, hno⟩

theorem read_given_iff : (∃ bytes, m.read a k = .ok bytes) ↔
    (m.strict = true → ∀ i < k, m.Mapped (a + UInt64.ofNat i)) := by
  have hrefused := read_refused_iff (m := m) (a := a) (k := k)
  constructor
  · rintro ⟨bytes, hbytes⟩ hstrict i hi
    by_contra hunmapped
    obtain ⟨f, hf⟩ := hrefused.2 ⟨hstrict, i, hi, hunmapped⟩
    rw [hbytes] at hf
    cases hf
  · intro h
    cases hr : m.read a k with
    | ok bytes => exact ⟨bytes, rfl⟩
    | error f =>
      obtain ⟨hstrict, i, hi, hunmapped⟩ := hrefused.1 ⟨f, hr⟩
      exact absurd (h hstrict i hi) hunmapped

theorem readWord_error_iff {w : Width} :
    m.readWord a w = .error f ↔ m.read a w.wordBytes = .error f := by
  exact error_bind_pure_iff

theorem reading (m : Memory) (a : UInt64) (k : Nat) : m.Reading a k where
  given _ h := (dump_of_read h).symm
  refused := read_refused_iff
  first _ := read_first_iff
  word w hk hw f := by
    have hbytes : w.wordBytes = k := (Nat.min_eq_left hw).trans hk
    rw [readWord_error_iff, hbytes]

/-! What a write leaves. -/

/-- An address outside of a range of addresses is as far from its start as the range is long. -/
theorem length_le_offset (h : ∀ i < k, x ≠ a + UInt64.ofNat i) : k ≤ (x - a).toNat := by
  by_contra hlt
  exact h (x - a).toNat (by omega) (add_offset a x).symm

theorem writes (m : Memory) (a : UInt64) (h : bytes.length ≤ 2 ^ 64) :
    m.Writes a bytes (m.write a bytes) := by
  have hinside : ∀ i (hi : i < bytes.length),
      bytes[(a + UInt64.ofNat i - a).toNat]? = some bytes[i] := by
    intro i hi
    rw [toNat_offset (by omega), List.getElem?_eq_getElem hi]
  have hmapped : ∀ i < bytes.length, (m.write a bytes).isMapped (a + UInt64.ofNat i) = true := by
    intro i hi
    rw [isMapped_iff]
    left
    rw [Std.ExtTreeMap.mem_iff_isSome_getElem?, getElem?_cells_write m a _ h, hinside i hi]
    rfl
  have hpeek : ∀ i (hi : i < bytes.length),
      (m.write a bytes).peek (a + UInt64.ofNat i) = bytes[i] := by
    intro i hi
    rw [peek_write m a _ bytes h, hinside i hi]
    rfl
  have hread : ∀ strict,
      ({ m.write a bytes with strict } : Memory).read a bytes.length = .ok bytes := by
    intro strict
    refine read_of_readByte fun i hi => ?_
    have hbyte := hmapped i hi
    unfold isMapped at hbyte
    unfold readByte isMapped
    dsimp only
    rw [hbyte, ← hpeek i hi]
    simp [peek]
  refine ⟨?_, hread, hmapped, fun x hx => ?_⟩
  · exact dump_of_read (hread (m.write a bytes).strict)
  · have hnone : bytes[(x - a).toNat]? = none := List.getElem?_eq_none (length_le_offset hx)
    refine ⟨?_, ?_, ?_⟩
    · rw [peek_write m a x bytes h, hnone]
      rfl
    · rw [readByte_write m a x bytes h, hnone]
      rfl
    · rw [Bool.eq_iff_iff, isMapped_iff, isMapped_iff]
      unfold Mapped
      rw [Std.ExtTreeMap.mem_iff_isSome_getElem?, Std.ExtTreeMap.mem_iff_isSome_getElem?,
        getElem?_cells_write m a x h, hnone, (Grows.write m a bytes).segments]
      rfl

/-! Words over one another. -/

theorem mapped_writeWord_iff {v : Width} (hv : v.bytes ≤ 8) (m : Memory) (a z : UInt64) :
    (m.writeWord a v z).Mapped x ↔ (x - a).toNat < v.bytes ∨ m.Mapped x := by
  have hbytes : v.wordBytes = v.bytes := Nat.min_eq_left hv
  have hlength := LittleEndian.length_ofWord v.wordBytes z
  have hwrites : m.Writes a (LittleEndian.ofWord v.wordBytes z) (m.writeWord a v z) :=
    m.writes a (by omega)
  by_cases hx : (x - a).toNat < v.bytes
  · have hmapped := hwrites.mapped (x - a).toNat (by omega)
    rw [add_offset] at hmapped
    exact iff_of_true (isMapped_iff.1 hmapped) (.inl hx)
  · have hsame := (hwrites.outside x fun i hi heq => hx ?_).2.2
    · rw [Bool.eq_iff_iff, isMapped_iff, isMapped_iff] at hsame
      rw [or_iff_right hx]
      exact hsame
    · rw [heq, toNat_offset (by omega)]
      omega

/-- The bytes of a word that is read are the ones that stand there. -/
theorem byteAt_of_readWord {w : Width} {y : UInt64} (hw : w.bytes ≤ 8)
    (h : m.readWord a w = .ok y) {i : Nat} (hi : i < w.bytes) :
    LittleEndian.byteAt y i = (m.peek (a + UInt64.ofNat i)).toNat := by
  have hbytes : w.wordBytes = w.bytes := Nat.min_eq_left hw
  have hi : i < w.wordBytes := by omega
  obtain ⟨b, hb, hvalue⟩ := LittleEndian.getElem?_ofWord hi y
  have hpeek := getElem?_dump m a hi
  rw [(stored_of_readWord h).inside, hb] at hpeek
  cases hpeek
  exact hvalue.symm

theorem peek_writeWord_offset {v : Width} (hv : v.bytes ≤ 8) (m : Memory) (a z : UInt64) {i : Nat}
    (hi : i < 8) : ((m.writeWord a v z).peek (a + UInt64.ofNat i)).toNat =
      if i < v.bytes then LittleEndian.byteAt z i else (m.peek (a + UInt64.ofNat i)).toNat := by
  have hbytes : v.wordBytes = v.bytes := Nat.min_eq_left hv
  rw [peek_writeWord, toNat_offset (by omega), hbytes]
  split_ifs with hiv
  · obtain ⟨b, hb, hvalue⟩ := LittleEndian.getElem?_ofWord hiv z
    rw [hb]
    exact hvalue
  · rw [List.getElem?_eq_none (by rw [LittleEndian.length_ofWord]; omega)]
    rfl

theorem overlaps {v w : Width} (hv : v.bytes ≤ 8) (hw : w.bytes ≤ 8) (m : Memory) (a z : UInt64) :
    m.Overlaps a v w z := by
  have hbytes : w.wordBytes = w.bytes := Nat.min_eq_left hw
  refine ⟨fun y hy => ⟨?_, fun i hi => ?_⟩, ?_⟩
  · have hlt := readWord_lt hy
    unfold Width.modulus Width.wordBits at hlt
    rw [hbytes] at hlt
    exact hlt
  · rw [byteAt_of_readWord hw hy hi, peek_writeWord_offset hv m a z (by omega)]
  · have hread : (∃ y, (m.writeWord a v z).readWord a w = .ok y) ↔
        ∃ bytes, (m.writeWord a v z).read a w.bytes = .ok bytes := by
      unfold readWord
      rw [bind_ok_iff, hbytes]
      exact exists_congr fun bytes => and_iff_left ⟨_, rfl⟩
    have hstrict : (m.writeWord a v z).strict = m.strict := (entry_write m a _).2.2
    rw [hread, read_given_iff, hstrict]
    refine imp_congr_right fun _ => forall_congr' fun i => imp_congr_right fun hi => ?_
    rw [mapped_writeWord_iff hv, toNat_offset (by omega), ← not_lt, imp_iff_not_or, not_not]

/-- Guest memory is a map from addresses to bytes: a write of at most 2^64 bytes from any address on
leaves these bytes there and nothing else, words overlap byte by byte, and strict memory refuses what
it does not map. -/
theorem byteMap_of_memory (m : Memory) : m.ByteMap where
  writes a _ h := m.writes a h
  words a _ _ z hv hw := m.overlaps hv hw a z
  reads a k := m.reading a k

def bare : Memory := { empty with strict := true }

/-- Four bytes around the top of the address space. -/
def aroundTop : Memory := bare.write 0xFFFF_FFFF_FFFF_FFFE [0x11, 0x22, 0x33, 0x44]

/-- Two of the four bytes are overwritten and the others stand above them; a word of eight lacks its
fifth byte. -/
theorem aroundTop_byteMap :
    (bare.Writes 0xFFFF_FFFF_FFFF_FFFE [0x11, 0x22, 0x33, 0x44] aroundTop ∧
      aroundTop.Overlaps 0xFFFF_FFFF_FFFF_FFFE .word .dword 0xABCD ∧
      aroundTop.Reading 0xFFFF_FFFF_FFFF_FFFE 8) ∧
    (aroundTop.writeWord 0xFFFF_FFFF_FFFF_FFFE .word 0xABCD).readWord 0xFFFF_FFFF_FFFF_FFFE .dword =
      .ok 0x4433_ABCD ∧
    aroundTop.readWord 0xFFFF_FFFF_FFFF_FFFE .qword = .error (.unmappedMemory 2) := by
  refine ⟨⟨?_, ?_, ?_⟩, by decide +kernel, by decide +kernel⟩
  · exact (byteMap_of_memory bare).writes _ _ (by decide)
  · exact (byteMap_of_memory aroundTop).words _ _ _ _ (by decide) (by decide)
  · exact (byteMap_of_memory aroundTop).reads _ _

end Memory

end LongMode
