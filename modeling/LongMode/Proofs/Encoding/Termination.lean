import LongMode.Proofs.Listing.Decode
import LongMode.Proofs.Memory.BitString
/-!
Decoding comes to an end. Nothing bounds the run of modifiers in front of an opcode but a byte that is
no modifier, so here they are read with no bound at all, as a relation to what the reading ends with.
It ends exactly if there is such a byte, or one that cannot be read, and it has read no more modifiers
than that byte is away. Behind the modifiers an instruction has at least one byte and at most eleven.
-/

namespace LongMode

def legacyPrefixes : List UInt8 :=
  [0x26, 0x2E, 0x36, 0x3E, 0x64, 0x65, 0x66, 0x67, 0xF0, 0xF2, 0xF3]

def IsPrefixByte (b : UInt8) : Prop := b ∈ legacyPrefixes ∨ 0x40 ≤ b ∧ b ≤ 0x4F

instance (b : UInt8) : Decidable (IsPrefixByte b) := inferInstanceAs (Decidable (_ ∨ _))

/-- Nothing can be read at the address, or a byte that is no prefix. -/
def Fetch.StopsAt (f : Fetch) (x : UInt64) : Prop :=
  (∃ e, f x = .error e) ∨ ∃ b, f x = .ok b ∧ ¬ IsPrefixByte b

namespace Modifiers

variable {f : Fetch} {m : Modifiers} {a x : UInt64}

theorem isModifier_iff (b : UInt8) : isModifier b = true ↔ IsPrefixByte b := by
  have hall : ∀ n < 256, isModifier (UInt8.ofNat n) = decide (IsPrefixByte (UInt8.ofNat n)) := by
    decide +kernel
  have hb := hall b.toNat b.toNat_lt
  rw [UInt8.ofNat_toNat] at hb
  rw [hb, decide_eq_true_eq]

theorem stopsAt_iff : f.StopsAt x ↔ ∀ b, f x = .ok b → isModifier b = false := by
  unfold Fetch.StopsAt
  simp only [← isModifier_iff, Bool.not_eq_true]
  cases f x with
  | error e => simp
  | ok b => simp

/-- Reading modifiers from `a` on, behind `m`, ends with `r`: which ones there are, and where they end.
Nothing bounds how many there are. -/
inductive ReadsTo (f : Fetch) : Modifiers → UInt64 → Modifiers × UInt64 → Prop where
  | unread {m : Modifiers} {a : UInt64} {e : Fault} (ha : f a = .error e) : ReadsTo f m a (m, a)
  | opcode {m : Modifiers} {a : UInt64} {byte : UInt8} (ha : f a = .ok byte)
    (hm : m.absorb? byte = none) : ReadsTo f m a (m, a)
  | modifier {m next : Modifiers} {a : UInt64} {byte : UInt8} {r : Modifiers × UInt64}
    (ha : f a = .ok byte) (hm : m.absorb? byte = some next) (hr : ReadsTo f next (a + 1) r) :
    ReadsTo f m a r

theorem ReadsTo.unique {r s : Modifiers × UInt64} (hr : ReadsTo f m a r) (hs : ReadsTo f m a s) :
    r = s := by
  induction hr with
  | unread ha =>
    cases hs with
    | unread _ => rfl
    | opcode ha' _ => exact absurd (ha.symm.trans ha') nofun
    | modifier ha' _ _ => exact absurd (ha.symm.trans ha') nofun
  | opcode ha hm =>
    cases hs with
    | unread ha' => exact absurd (ha.symm.trans ha') nofun
    | opcode _ _ => rfl
    | modifier ha' hm' _ =>
      cases ha.symm.trans ha'
      exact absurd (hm.symm.trans hm') nofun
  | modifier ha hm _ ih =>
    cases hs with
    | unread ha' => exact absurd (ha.symm.trans ha') nofun
    | opcode ha' hm' =>
      cases ha.symm.trans ha'
      exact absurd (hm.symm.trans hm') nofun
    | modifier ha' hm' hrest =>
      cases ha.symm.trans ha'
      cases hm.symm.trans hm'
      exact ih hrest

/-- The distance to a byte that stops the modifiers is a bound that is never met. -/
theorem readsTo_scan {n k : Nat} (hk : k < n) (hstop : f.StopsAt (a + UInt64.ofNat k)) :
    ReadsTo f m a (scan f n m a) := by
  induction n generalizing k m a with
  | zero => omega
  | succ n ih =>
    rw [scan]
    cases hb : f a with
    | error e => exact .unread hb
    | ok byte =>
      dsimp only
      cases hm : m.absorb? byte with
      | none => exact .opcode hb hm
      | some next =>
        rcases k with _ | k
        · -- the byte that stops is no modifier
          have hmodifier : isModifier byte = true := by rw [← isSome_absorb? m, hm]; rfl
          rw [show a + UInt64.ofNat 0 = a from UInt64.add_zero a] at hstop
          rw [stopsAt_iff.1 hstop byte hb] at hmodifier
          cases hmodifier
        · rw [← add_one_add_ofNat] at hstop
          exact .modifier hb hm (ih (by omega) hstop)

/-! The run of modifiers that is counted. -/

theorem countUpTo_inside {n i : Nat} (hi : i < countUpTo f n a) :
    ∃ b, f (a + UInt64.ofNat i) = .ok b ∧ isModifier b = true := by
  induction n generalizing a i with
  | zero => exact absurd hi (Nat.not_lt_zero i)
  | succ n ih =>
    unfold countUpTo at hi
    cases hb : f a with
    | error e =>
      rw [hb] at hi
      exact absurd hi (Nat.not_lt_zero i)
    | ok byte =>
      rw [hb] at hi
      dsimp only at hi
      split_ifs at hi with hm
      · rcases i with _ | i
        · refine ⟨byte, ?_, hm⟩
          rwa [show a + UInt64.ofNat 0 = a from UInt64.add_zero a]
        · rw [← add_one_add_ofNat]
          exact ih (by omega)
      · exact absurd hi (Nat.not_lt_zero i)

/-- If the bound is not met, what ends the count is a byte. -/
theorem countUpTo_stops {n : Nat} (hlt : countUpTo f n a < n) :
    f.StopsAt (a + UInt64.ofNat (countUpTo f n a)) := by
  induction n generalizing a with
  | zero => exact absurd hlt (Nat.not_lt_zero _)
  | succ n ih =>
    have hzero : a + UInt64.ofNat 0 = a := UInt64.add_zero a
    unfold countUpTo at hlt ⊢
    cases hb : f a with
    | error e =>
      dsimp only
      rw [hzero]
      exact .inl ⟨e, hb⟩
    | ok byte =>
      rw [hb] at hlt
      dsimp only at hlt ⊢
      split_ifs at hlt ⊢ with hm
      · rw [← add_one_add_ofNat]
        exact ih (by omega)
      · rw [hzero]
        exact .inr ⟨byte, hb, fun hp => hm ((isModifier_iff byte).2 hp)⟩

end Modifiers

namespace Located

variable {f : Fetch} {start x : UInt64}

def behind (f : Fetch) (start : UInt64) (r : Modifiers × UInt64) : Except Halt Located :=
  (body r.1 f r.2).map fun ((map, opcode, instruction), next) =>
    { start, modifiers := r.1, map, opcode, instruction, next }

theorem at?_eq_behind (f : Fetch) (start : UInt64) :
    at? f start = behind f start (Modifiers.leading f start) := by
  unfold at? behind
  rcases Modifiers.leading f start with ⟨modifiers, a⟩
  dsimp only
  cases body modifiers f a <;> rfl

/-- Decoding at `start` ends with this result. Nothing bounds how many modifiers it reads. -/
def Decodes (f : Fetch) (start : UInt64) (result : Except Halt Located) : Prop :=
  ∃ r, Modifiers.ReadsTo f {} start r ∧ result = behind f start r

/-- Where some byte ends the modifiers, decoding ends as the bounded decoding does. -/
theorem decodes_iff {result : Except Halt Located} (hx : f.StopsAt x) :
    Decodes f start result ↔ result = at? f start := by
  have hleading : Modifiers.ReadsTo f {} start (Modifiers.leading f start) := by
    rw [← Memory.add_offset start x] at hx
    exact Modifiers.readsTo_scan (x - start).toNat_lt hx
  rw [at?_eq_behind]
  constructor
  · rintro ⟨r, hr, hresult⟩
    rw [hr.unique hleading] at hresult
    exact hresult
  · intro hresult
    exact ⟨_, hleading, hresult⟩

end Located

/-- Every modifier in memory has been written, so there are no more of them than written bytes. -/
theorem Memory.count_le_cells {m : Memory} {a : UInt64} {p : Nat} (hp : p ≤ 2 ^ 64)
    (h : ∀ i < p, ∃ b, m.readByte (a + UInt64.ofNat i) = .ok b ∧ IsPrefixByte b) :
    p ≤ m.cells.size := by
  have hwritten : ∀ x ∈ (List.range p).map fun i => a + UInt64.ofNat i, x ∈ m.cells := by
    intro x hx
    obtain ⟨i, hi, rfl⟩ := List.mem_map.1 hx
    obtain ⟨b, hb, hprefix⟩ := h i (List.mem_range.1 hi)
    by_contra hnot
    rw [← peek_of_readByte hb, peek_of_not_written hnot] at hprefix
    revert hprefix
    decide
  have hdistinct : ((List.range p).map fun i => a + UInt64.ofNat i).Nodup := by
    refine List.Nodup.map_on (fun i hi j hj hij => ?_) List.nodup_range
    have hi := List.mem_range.1 hi
    have hj := List.mem_range.1 hj
    rw [← toNat_offset (show i < 2 ^ 64 by omega) a, hij, toNat_offset (by omega)]
  have hle := length_le_cells hdistinct hwritten
  rwa [List.length_map, List.length_range] at hle

namespace Machine

/-- What decoding at the instruction pointer comes to, with `p` prefix bytes there. -/
structure DecodesBehind (m : Machine) (p : Nat) : Prop where
  /-- There are `p` prefix bytes in a row. -/
  run : ∀ i < p, ∃ b, m.memory.readByte (m.ip + UInt64.ofNat i) = .ok b ∧ IsPrefixByte b
  /-- No further one follows. -/
  behind : Fetch.StopsAt m.memory.readByte (m.ip + UInt64.ofNat p)
  /-- Decoding ends, and in one way. -/
  ends : ∀ result, Located.Decodes m.memory.readByte m.ip result ↔ result = m.locate
  /-- Without a fault, the instruction has at least one byte behind the prefixes and at most eleven,
  whether its opcode is known or not. -/
  bounded : ∀ l, m.locate = .ok l → ∃ n, p + 1 ≤ n ∧ n ≤ p + 11 ∧
    Fetch.Readable m.memory.readByte m.ip n ∧ l.next = m.ip + UInt64.ofNat n ∧
    (m.lineFor l).length = UInt64.ofNat n ∧
    -- the length fits into a word, as memory does not hold 2^64 prefixes
    (m.memory.cells.size + 11 < 2 ^ 64 → (m.lineFor l).length.toNat = n)

/-- Where some byte is no prefix or cannot be read, decoding ends. That byte is behind the instruction
pointer whatever its address, as addresses wrap around; there are no more prefixes than it is away. -/
theorem decoding_ends (m : Machine) {x : UInt64} (hx : Fetch.StopsAt m.memory.readByte x) :
    ∃ p ≤ (x - m.ip).toNat, m.DecodesBehind p := by
  have hle : Modifiers.count m.memory.readByte m.ip ≤ (x - m.ip).toNat := by
    refine Modifiers.countUpTo_le _ _ _ _ fun byte hb => ?_
    rw [Memory.add_offset] at hb
    exact Modifiers.stopsAt_iff.1 hx byte hb
  have hlt := (x - m.ip).toNat_lt
  have hrun : ∀ i < Modifiers.count m.memory.readByte m.ip, ∃ b,
      m.memory.readByte (m.ip + UInt64.ofNat i) = .ok b ∧ IsPrefixByte b := by
    intro i hi
    obtain ⟨b, hb, hmodifier⟩ := Modifiers.countUpTo_inside hi
    exact ⟨b, hb, (Modifiers.isModifier_iff b).1 hmodifier⟩
  refine ⟨Modifiers.count m.memory.readByte m.ip, hle, hrun, ?_,
    fun _ => Located.decodes_iff hx, ?_⟩
  · exact Modifiers.countUpTo_stops (hle.trans_lt hlt)
  · intro l hl
    have hspans := Located.at?_spans hl
    have hlength : (m.lineFor l).length = UInt64.ofNat (l.size m.memory.readByte) := by
      rw [Listing.lineFor_length, Located.length, hspans.next, hspans.start, UInt64.add_comm,
        UInt64.add_sub_cancel]
    refine ⟨l.size m.memory.readByte, hspans.nonempty, hspans.bounded, hspans.readable, hspans.next,
      hlength, fun hroom => ?_⟩
    have hcells := Memory.count_le_cells (by omega) hrun
    have hbounded := hspans.bounded
    rw [hlength, UInt64.toNat_ofNat_of_lt']
    change _ < 2 ^ 64
    omega

/-- Three prefixes, and an addition with all that an encoding can have: eleven bytes. -/
def longest : Machine := .ofCode
  [0x2E, 0xF0, 0x48, 0x81, 0x84, 0xC8, 0x78, 0x56, 0x34, 0x12, 0x44, 0x33, 0x22, 0x11]

theorem longest_decoding_ends :
    (∃ p ≤ 3, longest.DecodesBehind p) ∧ Fetch.StopsAt longest.memory.readByte 0x1003 ∧
    longest.locate.map (fun l => ((longest.lineFor l).length, (longest.lineFor l).text)) =
      .ok (14, "ADD QWORD PTR CS:[RAX+RCX*8+0x12345678], 0x11223344") := by
  have hstop : Fetch.StopsAt longest.memory.readByte 0x1003 := .inr ⟨0x81, by rfl, by decide⟩
  exact ⟨longest.decoding_ends hstop, hstop, by decide +kernel⟩

end Machine

end LongMode
