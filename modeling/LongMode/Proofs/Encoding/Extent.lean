import LongMode.Proofs.Encoding.Opcodes
/-!
How far an encoding reaches. An encoding is a run of modifiers and at most eleven bytes behind it,
and what is decoded depends on these bytes only, except that the byte behind an encoding without an
instruction may have been looked at.
-/

namespace LongMode

open Decoder

namespace Modifiers

def isModifier (byte : UInt8) : Bool := (absorb? {} byte).isSome

theorem isSome_absorb? (m : Modifiers) (byte : UInt8) :
    (m.absorb? byte).isSome = isModifier byte := by
  have h : ∀ p q : Prefixes, (p.record? byte).isSome = (q.record? byte).isSome := by
    intro p q
    unfold Prefixes.record?
    split <;> rfl
  have h := h m.toPrefixes {}
  unfold isModifier absorb?
  cases hp : m.toPrefixes.record? byte <;> cases hq : Prefixes.record? {} byte <;>
    simp_all

def countUpTo (fetch : Fetch) : Nat → UInt64 → Nat
  | 0, _ => 0
  | n + 1, a =>
    match fetch a with
    | .error _ => 0
    | .ok byte => if isModifier byte then countUpTo fetch n (a + 1) + 1 else 0

def count (fetch : Fetch) (a : UInt64) : Nat := countUpTo fetch UInt64.size a

theorem scan_snd (fetch : Fetch) (n : Nat) (m : Modifiers) (a : UInt64) :
    (scan fetch n m a).2 = a + UInt64.ofNat (countUpTo fetch n a) := by
  induction n generalizing m a with
  | zero => simp [scan, countUpTo]
  | succ n ih =>
    unfold scan countUpTo
    cases fetch a with
    | error f => simp
    | ok byte =>
      dsimp only
      rw [← isSome_absorb? m byte]
      cases m.absorb? byte with
      | none => simp
      | some next =>
        simp only [Option.isSome_some, if_true, ih, UInt64.ofNat_add]
        rw [UInt64.add_assoc, UInt64.add_comm 1]
        rfl

theorem scan_congr {fetch g : Fetch} (n : Nat) (m : Modifiers) (a : UInt64)
    (h : ∀ i ≤ countUpTo fetch n a, g (a + UInt64.ofNat i) = fetch (a + UInt64.ofNat i)) :
    scan g n m a = scan fetch n m a := by
  induction n generalizing m a with
  | zero => rfl
  | succ n ih =>
    have h0 : g a = fetch a := by simpa using h 0 (Nat.zero_le _)
    unfold countUpTo at h
    unfold scan
    rw [h0]
    cases hb : fetch a with
    | error f => rfl
    | ok byte =>
      dsimp only
      rw [hb] at h
      dsimp only at h
      rw [← isSome_absorb? m byte] at h
      cases ha : m.absorb? byte with
      | none => rfl
      | some next =>
        refine ih next (a + 1) fun i hi => ?_
        rw [ha] at h
        have := h (1 + i) (by simp only [Option.isSome_some, if_true]; omega)
        rwa [show UInt64.ofNat (1 + i) = 1 + UInt64.ofNat i from UInt64.ofNat_add 1 i,
          ← UInt64.add_assoc] at this

/-- Modifiers with a byte behind them that can be read are the same where more can be read. -/
theorem scan_extend {f g : Fetch} (hg : f.Extends g) {n : Nat} {m : Modifiers} {a : UInt64}
    {b : UInt8} (h : f (scan f n m a).2 = .ok b) : scan g n m a = scan f n m a := by
  induction n generalizing m a with
  | zero => rfl
  | succ n ih =>
    unfold scan at h ⊢
    cases hb : f a with
    | error e => rw [hb] at h; cases hb.symm.trans h
    | ok byte =>
      rw [hb] at h
      rw [hg a byte hb]
      dsimp only at h ⊢
      cases ha : m.absorb? byte with
      | none => rfl
      | some next => rw [ha] at h; exact ih h

theorem countUpTo_extend {f g : Fetch} (hg : f.Extends g) {n : Nat} {a : UInt64} {b : UInt8}
    (h : f (a + UInt64.ofNat (countUpTo f n a)) = .ok b) : countUpTo g n a = countUpTo f n a := by
  induction n generalizing a with
  | zero => rfl
  | succ n ih =>
    unfold countUpTo at h ⊢
    cases hb : f a with
    | error e =>
      rw [hb] at h
      rw [show a + UInt64.ofNat 0 = a from UInt64.add_zero a] at h
      cases hb.symm.trans h
    | ok byte =>
      rw [hb] at h
      rw [hg a byte hb]
      dsimp only at h ⊢
      split_ifs at h ⊢
      · rw [UInt64.ofNat_add, UInt64.add_comm (UInt64.ofNat _), ← UInt64.add_assoc] at h
        exact congrArg (· + 1) (ih h)
      · rfl

theorem readable_countUpTo (fetch : Fetch) (n : Nat) (a : UInt64) :
    fetch.Readable a (countUpTo fetch n a) := by
  induction n generalizing a with
  | zero => exact .zero _ _
  | succ n ih =>
    unfold countUpTo
    cases hb : fetch a with
    | error f => exact .zero _ _
    | ok byte =>
      dsimp only
      split_ifs
      · rw [Nat.add_comm]
        exact Fetch.Readable.append (.one hb) (ih (a + 1))
      · exact .zero _ _

/-- A byte that is no modifier, or cannot be read, ends the modifiers. -/
theorem countUpTo_le (fetch : Fetch) (n k : Nat) (a : UInt64)
    (h : ∀ byte, fetch (a + UInt64.ofNat k) = .ok byte → isModifier byte = false) :
    countUpTo fetch n a ≤ k := by
  induction n generalizing a k with
  | zero => exact Nat.zero_le k
  | succ n ih =>
    unfold countUpTo
    cases hb : fetch a with
    | error f => exact Nat.zero_le k
    | ok byte =>
      dsimp only
      split_ifs with hm
      · cases k with
        | zero =>
          have hn := h byte (by simpa using hb)
          rw [hm] at hn
          cases hn
        | succ k =>
          refine Nat.succ_le_succ (ih k (a + 1) fun byte' hb' => h byte' ?_)
          rw [Nat.add_comm, UInt64.ofNat_add, ← UInt64.add_assoc]
          exact hb'
      · exact Nat.zero_le k

end Modifiers

namespace Located

def afterOpcode (mods : Modifiers) (byte : UInt8) :
    Decoder (OpcodeMap × UInt8 × Option Instruction) :=
  if byte = escape then Decoder.fetch >>= fun second =>
    (fun i => (.twoByte, second, i)) <$> OpcodeMap.twoByte.decode mods second
  else (fun i => (.oneByte, byte, i)) <$> OpcodeMap.oneByte.decode mods byte

theorem body_eq (mods : Modifiers) : body mods = Decoder.fetch >>= afterOpcode mods := by
  unfold body opcode?
  simp only [bind_assoc]
  congr 1
  funext byte
  unfold afterOpcode
  split_ifs <;> simp

theorem afterOpcode_reads (mods : Modifiers) (byte : UInt8) :
    (afterOpcode mods byte).Reads 0 10 (fun r => peeked r.2.2) fun r => Encodes r.2.2 := by
  unfold afterOpcode
  split_ifs
  · refine fetch_reads.bind (by omega) fun second _ => ?_
    exact (OpcodeMap.decode_reads .twoByte mods second).map (fun _ h => h) fun _ => le_rfl
  · exact (OpcodeMap.decode_reads .oneByte mods byte).map (fun _ h => h) fun _ => le_rfl

theorem body_reads (mods : Modifiers) :
    (body mods).Reads 1 11 (fun r => peeked r.2.2) fun r => Encodes r.2.2 := by
  rw [body_eq]
  exact fetch_reads.bind (by omega) fun byte _ => afterOpcode_reads mods byte

theorem body_ok {mods : Modifiers} {fetch : Fetch} {a next : UInt64}
    {r : OpcodeMap × UInt8 × Option Instruction} (h : body mods fetch a = .ok (r, next)) :
    Encodes r.2.2 ∧ ∃ k, 1 ≤ k ∧ k ≤ 11 ∧ next = a + UInt64.ofNat k ∧ fetch.Readable a k ∧
      (body mods).Local fetch a (k + peeked r.2.2) := by
  obtain ⟨j, hj, hreadable⟩ := (body_reads mods).taken h
  rw [body_eq] at h ⊢
  rw [bind_apply] at h
  cases hb : Decoder.fetch fetch a with
  | error e => rw [hb] at h; cases h
  | ok s =>
    obtain ⟨byte, b⟩ := s
    rw [hb] at h
    obtain ⟨-, m, hm, hm', rfl, hlocal⟩ := fetch_reads.ok hb
    obtain ⟨hr, n, hn, -, hnext, hlocal'⟩ := (afterOpcode_reads mods byte).ok h
    simp only [exact, Nat.add_zero] at hm' hlocal
    rw [UInt64.add_assoc, ← UInt64.ofNat_add] at hnext
    refine ⟨hr, m + n, by omega, by omega, hnext, hreadable.mono ?_, ?_⟩
    · -- the two counts agree modulo 2^64
      rw [hnext, UInt64.add_right_inj] at hj
      have hj := congrArg UInt64.toNat hj
      rw [UInt64.toNat_ofNat', UInt64.toNat_ofNat'] at hj
      omega
    · rw [Nat.add_assoc]
      exact Local.bind hb hlocal hlocal'

theorem body_extend {mods : Modifiers} {f g : Fetch} (hg : f.Extends g) {a : UInt64}
    {r : (OpcodeMap × UInt8 × Option Instruction) × UInt64} (h : body mods f a = .ok r) :
    (∃ b, f a = .ok b) ∧ body mods g a = .ok r := by
  rw [body_eq, bind_apply] at h
  rw [body_eq, bind_apply]
  cases hb : f a with
  | error e => rw [fetch_of_error hb] at h; cases h
  | ok byte =>
    rw [fetch_of_ok hb] at h
    rw [fetch_of_ok (hg a byte hb)]
    exact ⟨⟨byte, rfl⟩, (afterOpcode_reads mods byte).extend hg h⟩

theorem body_error {mods : Modifiers} {fetch : Fetch} {a : UInt64} {e : Halt}
    (h : body mods fetch a = .error e) : ∃ n f, e = .fault f ∧
      fetch (a + UInt64.ofNat n) = .error f ∧ fetch.Readable a n := (body_reads mods).error h

/-- Twelve bytes decide what is decoded behind the modifiers, and which fault it is if nothing
is. -/
theorem body_congr {mods : Modifiers} {f g : Fetch} {a : UInt64}
    (h : ∀ i < 12, g (a + UInt64.ofNat i) = f (a + UInt64.ofNat i)) :
    body mods g a = body mods f a :=
  (body_reads mods).congr (fun _ => by unfold peeked; split_ifs <;> omega) h

/-- A zero byte is an opcode with an operand behind it. -/
theorem afterOpcode_zero_reads (mods : Modifiers) :
    (afterOpcode mods 0).Reads 1 6 exact fun _ => True := by
  have hclassic : (Opcodes.classic mods 0).Reads 1 6 exact fun _ => True :=
    (Opcodes.modRmPair_reads mods { byteSized := true } rfl).bind le_rfl fun _ _ =>
      Reads.pure trivial (by omega)
  have hmap : (OpcodeMap.oneByte.decode mods 0).Reads 1 6 exact fun _ => True :=
    hclassic.map_exact fun _ _ => trivial
  exact hmap.map_exact fun _ _ => trivial

/-- The number of bytes of an encoding: the modifiers, and what stands behind them. -/
def size (fetch : Fetch) (l : Located) : Nat :=
  Modifiers.count fetch l.start + (l.next - (Modifiers.leading fetch l.start).2).toNat

/-- The encoding at `p` has `n` bytes, no other byte decides what it is, and its instruction is
well-formed. -/
structure Spans (fetch : Fetch) (p : UInt64) (n : Nat) (l : Located) : Prop where
  start : l.start = p
  next : l.next = p + UInt64.ofNat n
  nonempty : Modifiers.count fetch p < n
  bounded : n ≤ Modifiers.count fetch p + 11
  readable : fetch.Readable p n
  wellFormed : Encodes l.instruction
  congr : ∀ g : Fetch, (∀ i < n + peeked l.instruction,
    g (p + UInt64.ofNat i) = fetch (p + UInt64.ofNat i)) → at? g p = .ok l

theorem at?_spans {fetch : Fetch} {p : UInt64} {l : Located} (h : at? fetch p = .ok l) :
    Spans fetch p (size fetch l) l := by
  unfold at? at h
  set mods := (Modifiers.leading fetch p).1 with hmods
  set a := (Modifiers.leading fetch p).2 with ha
  have ha' : a = p + UInt64.ofNat (Modifiers.count fetch p) := Modifiers.scan_snd _ _ _ _
  have hl : Modifiers.leading fetch p = (mods, a) := rfl
  simp only [hl] at h
  cases hb : body mods fetch a with
  | error e => rw [hb] at h; cases h
  | ok s =>
    obtain ⟨⟨map, opcode, instruction⟩, next⟩ := s
    rw [hb] at h
    cases h
    obtain ⟨hw, k, hk, hk', rfl, hreadable, hlocal⟩ := body_ok hb
    dsimp only at hw hlocal
    have hsize : size fetch ⟨p, mods, map, opcode, instruction, a + UInt64.ofNat k⟩ =
        Modifiers.count fetch p + k := by
      have hk : (a + UInt64.ofNat k - a).toNat = k := by
        rw [UInt64.add_comm, UInt64.add_sub_cancel, UInt64.toNat_ofNat']
        omega
      simp only [size, ← ha, hk]
    rw [hsize]
    refine ⟨rfl, ?_, by omega, by omega, ?_, hw, fun g hg => ?_⟩
    · rw [ha', UInt64.ofNat_add, UInt64.add_assoc]
    · rw [ha'] at hreadable
      exact (Modifiers.readable_countUpTo _ _ _).append hreadable
    · have hmodifiers : Modifiers.leading g p = (mods, a) := by
        rw [← hl]
        exact Modifiers.scan_congr _ _ _ fun i hi => hg i (by unfold Modifiers.count; omega)
      have hbody := hlocal g fun i hi => by
        have := hg (Modifiers.count fetch p + i) (by dsimp only; omega)
        rwa [UInt64.ofNat_add, ← UInt64.add_assoc, ← ha'] at this
      simp only [at?, hmodifiers, hbody, hb]

/-- Behind the modifiers of an encoding a byte can be read. -/
theorem opcode_of_at? {f : Fetch} {p : UInt64} {l : Located} (h : at? f p = .ok l) :
    ∃ b, f (Modifiers.leading f p).2 = .ok b := by
  unfold at? at h
  dsimp only at h
  cases hb : body (Modifiers.leading f p).1 f (Modifiers.leading f p).2 with
  | error e => rw [hb] at h; cases h
  | ok r => exact (body_extend (fun _ _ h => h) hb).1

/-- What is encoded at an address stays the same where more bytes can be read. -/
theorem at?_extend {f g : Fetch} (hg : f.Extends g) {p : UInt64} {l : Located}
    (h : at? f p = .ok l) : at? g p = .ok l := by
  obtain ⟨b, hb⟩ := opcode_of_at? h
  have hscan : Modifiers.leading g p = Modifiers.leading f p := Modifiers.scan_extend hg hb
  unfold at? at h ⊢
  dsimp only at h ⊢
  cases hb : body (Modifiers.leading f p).1 f (Modifiers.leading f p).2 with
  | error e => rw [hb] at h; cases h
  | ok r =>
    rw [hb] at h
    rw [hscan, (body_extend hg hb).2]
    exact h

theorem size_extend {f g : Fetch} (hg : f.Extends g) {p : UInt64} {l : Located}
    (h : at? f p = .ok l) : size g l = size f l := by
  obtain ⟨b, hb⟩ := opcode_of_at? h
  have hscan : Modifiers.leading g p = Modifiers.leading f p := Modifiers.scan_extend hg hb
  have hcount : Modifiers.count g p = Modifiers.count f p := by
    unfold Modifiers.leading at hb
    rw [Modifiers.scan_snd] at hb
    exact Modifiers.countUpTo_extend hg hb
  rw [size, size, (at?_spans h).start, hscan, hcount]

theorem two_le_size_of_zero {f : Fetch} {p : UInt64} {l : Located} (h : at? f p = .ok l)
    (h0 : f p = .ok 0) : 2 ≤ size f l := by
  have hp : p + UInt64.ofNat 0 = p := UInt64.add_zero p
  have hcount : Modifiers.count f p = 0 := by
    refine Nat.le_zero.1 (Modifiers.countUpTo_le f _ 0 p fun byte hb => ?_)
    rw [hp, h0] at hb
    cases hb
    rfl
  have hleading : (Modifiers.leading f p).2 = p + UInt64.ofNat (Modifiers.count f p) :=
    Modifiers.scan_snd _ _ _ _
  rw [hcount, hp] at hleading
  unfold at? at h
  dsimp only at h
  cases hb : body (Modifiers.leading f p).1 f (Modifiers.leading f p).2 with
  | error e => rw [hb] at h; cases h
  | ok r =>
    obtain ⟨r, next⟩ := r
    rw [hb] at h
    rw [hleading, body_eq, bind_apply, fetch_of_ok h0] at hb
    obtain ⟨-, n, hn, hn', hnext, -⟩ := (afterOpcode_zero_reads _).ok hb
    cases h
    have hone : p + 1 + UInt64.ofNat n = UInt64.ofNat (1 + n) + p := by
      rw [UInt64.ofNat_add, UInt64.add_assoc, UInt64.add_comm]
      rfl
    simp only [exact, Nat.add_zero] at hn'
    simp only [size, hleading, hnext, hone, UInt64.add_sub_cancel, UInt64.toNat_ofNat']
    omega

/-- Where nothing is decoded, the first byte that cannot be read is the reason. -/
theorem at?_first_error {fetch : Fetch} {p : UInt64} {e : Halt} (h : at? fetch p = .error e) :
    ∃ n f, e = .fault f ∧ fetch (p + UInt64.ofNat n) = .error f ∧ fetch.Readable p n := by
  unfold at? at h
  dsimp only at h
  cases hb : body (Modifiers.leading fetch p).1 fetch (Modifiers.leading fetch p).2 with
  | error e' =>
    rw [hb] at h
    cases h
    obtain ⟨n, f, rfl, hf, hn⟩ := body_error hb
    have hp : (Modifiers.leading fetch p).2 = p + UInt64.ofNat (Modifiers.count fetch p) :=
      Modifiers.scan_snd _ _ _ _
    rw [hp] at hf hn
    have hcount : fetch.Readable p (Modifiers.count fetch p) := Modifiers.readable_countUpTo _ _ _
    refine ⟨Modifiers.count fetch p + n, f, rfl, ?_, hcount.append hn⟩
    rw [UInt64.ofNat_add, ← UInt64.add_assoc]
    exact hf
  | ok s => rw [hb] at h; cases h

theorem at?_error {fetch : Fetch} {p : UInt64} {e : Halt} (h : at? fetch p = .error e) :
    ∃ a f, e = .fault f ∧ fetch a = .error f := by
  obtain ⟨n, f, hf, ha, -⟩ := at?_first_error h
  exact ⟨_, f, hf, ha⟩

end Located

end LongMode
