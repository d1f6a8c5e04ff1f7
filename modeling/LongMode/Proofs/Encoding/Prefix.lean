import LongMode.Memory
import LongMode.Proofs.Encoding.Extent
import LongMode.Proofs.Except
/-!
Runs of modifiers. What a run says depends only on the last byte of each of the two groups of which
the last one counts, on whether the two size prefixes occur, and on its final byte, if that is a REX
byte.
-/

namespace LongMode

def Fetch.Holds (f : Fetch) (a : UInt64) (bytes : List UInt8) : Prop :=
  ∀ i b, bytes[i]? = some b → f (a + UInt64.ofNat i) = .ok b

theorem Fetch.holds_nil (f : Fetch) (a : UInt64) : f.Holds a [] := by
  intro i b h
  cases h

theorem Fetch.holds_cons {f : Fetch} {a : UInt64} {b : UInt8} {rest : List UInt8} :
    f.Holds a (b :: rest) ↔ f a = .ok b ∧ f.Holds (a + 1) rest := by
  constructor
  · intro h
    refine ⟨by simpa using h 0 b rfl, fun i c hc => ?_⟩
    rw [add_one_add_ofNat]
    exact h (i + 1) c hc
  · rintro ⟨hb, hrest⟩ (_ | i) c hc
    · cases hc
      simpa using hb
    · rw [← add_one_add_ofNat]
      exact hrest i c hc

theorem Fetch.holds_append {f : Fetch} {a : UInt64} {p q : List UInt8} :
    f.Holds a (p ++ q) ↔ f.Holds a p ∧ f.Holds (a + UInt64.ofNat p.length) q := by
  induction p generalizing a with
  | nil => simp [holds_nil]
  | cons b rest ih =>
    rw [List.cons_append, holds_cons, ih, holds_cons, List.length_cons, add_one_add_ofNat,
      and_assoc]

theorem Memory.holds_of_read {m : Memory} {a : UInt64} {bytes : List UInt8}
    (h : m.read a bytes.length = .ok bytes) : Fetch.Holds m.readByte a bytes := by
  induction bytes generalizing a with
  | nil => exact Fetch.holds_nil _ _
  | cons b rest ih =>
    rw [List.length_cons, read] at h
    obtain ⟨c, hc, h⟩ := ok_of_bind h
    obtain ⟨tail, htail, h⟩ := ok_of_bind h
    cases h
    exact Fetch.holds_cons.2 ⟨hc, ih htail⟩

namespace Modifiers

def absorb (m : Modifiers) (byte : UInt8) : Modifiers := (m.absorb? byte).getD m

def ofRun (run : List UInt8) : Modifiers := run.foldl absorb {}

/-- The last byte of a group in a run. -/
def lastOf (group run : List UInt8) : Option UInt8 := run.reverse.find? (· ∈ group)

def segmentGroup : List UInt8 := [0x26, 0x2E, 0x36, 0x3E, 0x64, 0x65]

def repetitionGroup : List UInt8 := [0xF0, 0xF2, 0xF3]

/-- The final byte of a run, if it is a REX byte. -/
def rexInForce (run : List UInt8) : Option UInt8 := run.getLast?.filter fun b => b.toNat / 16 = 4

/-- Two runs that agree on all that they say but for the segment. -/
structure SameSummary (p q : List UInt8) : Prop where
  repetition : lastOf repetitionGroup q = lastOf repetitionGroup p
  operandSize : 0x66 ∈ q ↔ 0x66 ∈ p
  addressSize : 0x67 ∈ q ↔ 0x67 ∈ p
  rex : rexInForce q = rexInForce p

end Modifiers

namespace Prefixes

/-- What a byte says by itself; only a legacy prefix says anything. -/
def ofByte (byte : UInt8) : Prefixes := (record? {} byte).getD {}

def onTop (e p : Prefixes) : Prefixes where
  segment := e.segment.or p.segment
  repetition := e.repetition.or p.repetition
  operandSize := e.operandSize || p.operandSize
  addressSize := e.addressSize || p.addressSize

theorem record?_eq (p : Prefixes) (b : UInt8) :
    p.record? b = (record? {} b).map fun e => e.onTop p := by
  unfold record?
  split <;> simp [onTop]

/-- Which bytes say what. -/
theorem ofByte_says (b : UInt8) :
    (b ∉ Modifiers.segmentGroup → (ofByte b).segment = none) ∧
    (b ∉ Modifiers.repetitionGroup → (ofByte b).repetition = none) ∧
    (ofByte b).operandSize = decide (b = 0x66) ∧ (ofByte b).addressSize = decide (b = 0x67) := by
  have hbyte : b = UInt8.ofNat b.toNat := UInt8.ofNat_toNat.symm
  unfold ofByte record?
  split
  case h_12 h26 h2E h36 h3E h64 h65 hF0 hF2 hF3 h66 h67 =>
    refine ⟨fun _ => rfl, fun _ => rfl, ?_, ?_⟩
    · exact (decide_eq_false fun h => h66 (by rw [h]; rfl)).symm
    · exact (decide_eq_false fun h => h67 (by rw [h]; rfl)).symm
  all_goals
    rename_i hb
    rw [hb] at hbyte
    subst hbyte
    decide

/-- A legacy prefix is no REX byte. -/
theorem not_rex {b : UInt8} (h : (record? {} b).isSome = true) : Rex.ofByte? b = none := by
  have hbyte : b = UInt8.ofNat b.toNat := UInt8.ofNat_toNat.symm
  unfold record? at h
  split at h
  case h_12 => cases h
  all_goals
    rename_i hb
    rw [hb] at hbyte
    subst hbyte
    decide

end Prefixes

namespace Modifiers

variable {b : UInt8} {p q : List UInt8}

theorem absorb_eq (hb : isModifier b = true) (m : Modifiers) :
    m.absorb b = { (Prefixes.ofByte b).onTop m.toPrefixes with rex := Rex.ofByte? b } := by
  unfold isModifier absorb? at hb
  unfold absorb absorb? Prefixes.ofByte
  rw [Prefixes.record?_eq m.toPrefixes]
  cases he : Prefixes.record? {} b with
  | some e =>
    rw [Prefixes.not_rex (by rw [he]; rfl)]
    rfl
  | none =>
    have hnone : Prefixes.record? ({} : Modifiers).toPrefixes b = none := he
    rw [hnone] at hb
    cases hrex : Rex.ofByte? b with
    | none => rw [hrex] at hb; cases hb
    | some rex => simp [Prefixes.onTop]

theorem lastOf_append (group p : List UInt8) (b : UInt8) :
    lastOf group (p ++ [b]) = if b ∈ group then some b else lastOf group p := by
  unfold lastOf
  rw [List.reverse_append, List.reverse_singleton, List.singleton_append, List.find?_cons]
  by_cases h : b ∈ group <;> simp [h]

/-- The last byte of a group decides what the run says about it. -/
theorem or_lastOf {α : Type} (f : UInt8 → Option α) (group : List UInt8)
    (hin : group.all (fun b => (f b).isSome) = true) (hout : ∀ b, b ∉ group → f b = none)
    (p : List UInt8) (b : UInt8) :
    (f b).or ((lastOf group p).bind f) = (lastOf group (p ++ [b])).bind f := by
  rw [lastOf_append]
  split_ifs with h
  · obtain ⟨x, hx⟩ := Option.isSome_iff_exists.1 (List.all_eq_true.1 hin b h)
    rw [Option.bind_some, hx]
    rfl
  · rw [hout b h, Option.none_or]

theorem rexInForce_append (p : List UInt8) (b : UInt8) :
    (rexInForce (p ++ [b])).bind Rex.ofByte? = Rex.ofByte? b := by
  unfold rexInForce
  by_cases h : b.toNat / 16 = 4 <;> simp [Option.filter, h, Rex.ofByte?]

theorem ofRun_append (p : List UInt8) (b : UInt8) : ofRun (p ++ [b]) = (ofRun p).absorb b := by
  unfold ofRun
  rw [List.foldl_append]
  rfl

/-- What a run says, read off its bytes. -/
theorem ofRun_eq (hp : ∀ b ∈ p, isModifier b = true) : ofRun p =
    { segment := (lastOf segmentGroup p).bind fun b => (Prefixes.ofByte b).segment
      repetition := (lastOf repetitionGroup p).bind fun b => (Prefixes.ofByte b).repetition
      operandSize := decide (0x66 ∈ p)
      addressSize := decide (0x67 ∈ p)
      rex := (rexInForce p).bind Rex.ofByte? } := by
  induction p using List.reverseRecOn with
  | nil => rfl
  | append_singleton p b ih =>
    have hsegment := or_lastOf (fun b => (Prefixes.ofByte b).segment) segmentGroup rfl
      (fun b => (Prefixes.ofByte_says b).1) p b
    have hrepetition := or_lastOf (fun b => (Prefixes.ofByte b).repetition) repetitionGroup rfl
      (fun b => (Prefixes.ofByte_says b).2.1) p b
    obtain ⟨-, -, hoperand, haddress⟩ := Prefixes.ofByte_says b
    rw [ofRun_append, absorb_eq (hp b (by simp)), ih fun c hc => hp c (by simp [hc]),
      ← hsegment, ← hrepetition, rexInForce_append]
    simp only [Prefixes.onTop, hoperand, haddress, List.mem_append, List.mem_singleton,
      Bool.decide_or, Bool.or_comm, eq_comm]

def withSegment (segment : Option SegmentRegister) (m : Modifiers) : Modifiers :=
  { m with segment }

/-- Runs of one summary say the same but for the segment. -/
theorem SameSummary.ofRun_eq (h : SameSummary p q) (hp : ∀ b ∈ p, isModifier b = true)
    (hq : ∀ b ∈ q, isModifier b = true) :
    ofRun q = (ofRun p).withSegment (ofRun q).segment := by
  rw [Modifiers.ofRun_eq hp, Modifiers.ofRun_eq hq, withSegment, h.repetition, h.rex,
    decide_eq_decide.2 h.operandSize, decide_eq_decide.2 h.addressSize]

theorem segment_ofRun (hp : ∀ b ∈ p, isModifier b = true) (hq : ∀ b ∈ q, isModifier b = true)
    (h : lastOf segmentGroup q = lastOf segmentGroup p) :
    (ofRun q).segment = (ofRun p).segment := by
  rw [ofRun_eq hp, ofRun_eq hq, h]

/-! A run in memory. -/

theorem absorb?_of_isModifier (hb : isModifier b = true) (m : Modifiers) :
    m.absorb? b = some (m.absorb b) := by
  rw [← isSome_absorb? m] at hb
  unfold absorb
  obtain ⟨n, hn⟩ := Option.isSome_iff_exists.1 hb
  rw [hn]
  rfl

theorem scan_run {f : Fetch} {a : UInt64} {count : Nat} (hlength : p.length < count)
    (hf : f.Holds a p) (hp : ∀ b ∈ p, isModifier b = true)
    (hend : ∀ b, f (a + UInt64.ofNat p.length) = .ok b → isModifier b = false) (m : Modifiers) :
    scan f count m a = (p.foldl absorb m, a + UInt64.ofNat p.length) := by
  induction p generalizing a m count with
  | nil =>
    obtain ⟨count, rfl⟩ := Nat.exists_eq_add_one_of_ne_zero (Nat.ne_of_gt hlength)
    have h0 : a + UInt64.ofNat ([] : List UInt8).length = a := UInt64.add_zero a
    rw [h0] at hend ⊢
    unfold scan
    cases hb : f a with
    | error e => rfl
    | ok b =>
      have hnone : m.absorb? b = none := by
        rw [← Option.not_isSome_iff_eq_none, isSome_absorb?, hend b hb]
        decide
      dsimp only
      rw [hnone]
      rfl
  | cons b rest ih =>
    rw [List.length_cons] at hlength hend ⊢
    obtain ⟨count, rfl⟩ : ∃ n, count = n + 1 := ⟨count - 1, by omega⟩
    obtain ⟨hb, hrest⟩ := Fetch.holds_cons.1 hf
    rw [← add_one_add_ofNat] at hend ⊢
    rw [scan, hb]
    dsimp only
    rw [absorb?_of_isModifier (hp b List.mem_cons_self)]
    exact ih (by omega) hrest (fun c hc => hp c (List.mem_cons_of_mem b hc)) hend _

/-- A run with a byte behind it that is no modifier does not go round the address space. -/
theorem length_run_lt {f : Fetch} {a : UInt64} (hf : f.Holds a p)
    (hp : ∀ b ∈ p, isModifier b = true)
    (hend : ∀ b, f (a + UInt64.ofNat p.length) = .ok b → isModifier b = false) :
    p.length < UInt64.size := by
  by_contra hle
  have hround : UInt64.ofNat p.length = UInt64.ofNat (p.length % UInt64.size) := by
    apply UInt64.toNat_inj.1
    simp only [UInt64.toNat_ofNat']
    exact (Nat.mod_mod _ _).symm
  have hlt : p.length % UInt64.size < p.length :=
    (Nat.mod_lt _ (by decide)).trans_le (not_lt.1 hle)
  have hbyte := hf _ _ (List.getElem?_eq_getElem hlt)
  rw [← hround] at hbyte
  have hmodifier := hp _ (List.getElem_mem hlt)
  rw [hend _ hbyte] at hmodifier
  cases hmodifier

theorem leading_run {f : Fetch} {a : UInt64} (hf : f.Holds a p)
    (hp : ∀ b ∈ p, isModifier b = true)
    (hend : ∀ b, f (a + UInt64.ofNat p.length) = .ok b → isModifier b = false) :
    leading f a = (ofRun p, a + UInt64.ofNat p.length) :=
  scan_run (length_run_lt hf hp hend) hf hp hend {}

end Modifiers

/-- What is encoded at the start of a run is what stands behind it, under what the run says. -/
theorem Located.at?_of_run {f : Fetch} {a : UInt64} {p : List UInt8} (hf : f.Holds a p)
    (hp : ∀ b ∈ p, Modifiers.isModifier b = true)
    (hend : ∀ b, f (a + UInt64.ofNat p.length) = .ok b → Modifiers.isModifier b = false) :
    at? f a = (body (Modifiers.ofRun p) f (a + UInt64.ofNat p.length)).map fun r =>
      ⟨a, Modifiers.ofRun p, r.1.1, r.1.2.1, r.1.2.2, r.2⟩ := by
  unfold at?
  rw [Modifiers.leading_run hf hp hend]
  dsimp only
  cases body (Modifiers.ofRun p) f (a + UInt64.ofNat p.length) <;> rfl

end LongMode
