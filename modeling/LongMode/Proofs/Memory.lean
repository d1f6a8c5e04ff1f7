import LongMode.Memory
import LongMode.Proofs.Except
import Mathlib.Tactic
/-!
Memory after a write: the written bytes stand in a window of addresses modulo 2^64, and every byte
outside of it is the old one. A word that is read is the bytes that stand there. The map of the memory
stays, and no written byte is lost.
-/

namespace LongMode

namespace LittleEndian

theorem toNat_or_shift (b : UInt8) {t : UInt64} (ht : t.toNat < 2 ^ 56) :
    (b.toUInt64 ||| t <<< 8).toNat = b.toNat + 256 * t.toNat := by
  have hb : b.toNat < 2 ^ 8 := b.toNat_lt
  have hs : t.toNat <<< 8 = 256 * t.toNat := by rw [Nat.shiftLeft_eq]; omega
  rw [UInt64.toNat_or, UInt64.toNat_shiftLeft, UInt8.toNat_toUInt64, Nat.or_comm]
  change t.toNat <<< 8 % 2 ^ 64 ||| b.toNat = _
  rw [Nat.mod_eq_of_lt (by omega), ← Nat.shiftLeft_add_eq_or_of_lt hb, hs, Nat.add_comm]

theorem toWord_lt (bytes : List UInt8) (h : bytes.length ≤ 7) :
    (toWord bytes).toNat < 2 ^ (8 * bytes.length) := by
  induction bytes with
  | nil => simp [toWord]
  | cons b rest ih =>
    rw [List.length_cons] at h ⊢
    have hr := ih (by omega)
    have hpow : 2 ^ (8 * rest.length) ≤ 2 ^ 56 := Nat.pow_le_pow_right (by decide) (by omega)
    have hb : b.toNat < 2 ^ 8 := b.toNat_lt
    have hmul : 8 * (rest.length + 1) = 8 * rest.length + 8 := by ring
    rw [toWord, toNat_or_shift b (by omega), hmul, Nat.pow_add]
    omega

theorem ofWord_toWord (bytes : List UInt8) (h : bytes.length ≤ 8) :
    ofWord bytes.length (toWord bytes) = bytes := by
  induction bytes with
  | nil => rfl
  | cons b rest ih =>
    rw [List.length_cons] at h
    have hr := toWord_lt rest (by omega)
    have hpow : 2 ^ (8 * rest.length) ≤ 2 ^ 56 := Nat.pow_le_pow_right (by decide) (by omega)
    have hb : b.toNat < 2 ^ 8 := b.toNat_lt
    have hn := toNat_or_shift b (lt_of_lt_of_le hr hpow)
    have hlow : (toWord (b :: rest)).toUInt8 = b := by
      apply UInt8.toNat_inj.1
      rw [UInt64.toNat_toUInt8, toWord, hn]
      omega
    have hhigh : toWord (b :: rest) >>> 8 = toWord rest := by
      apply UInt64.toNat_inj.1
      rw [UInt64.toNat_shiftRight, toWord, hn]
      change (b.toNat + 256 * (toWord rest).toNat) >>> 8 = _
      rw [Nat.shiftRight_eq_div_pow]
      omega
    rw [List.length_cons, ofWord, hlow, hhigh, ih (by omega)]

theorem take_ofWord {k n : Nat} (h : k ≤ n) (v : UInt64) :
    (ofWord n v).take k = ofWord k v := by
  induction n generalizing k v with
  | zero =>
    obtain rfl : k = 0 := by omega
    rfl
  | succ n ih =>
    cases k with
    | zero => rfl
    | succ k => rw [ofWord, List.take_succ_cons, ih (by omega), ofWord]

/-- Zeros at the high end of a word do not show. -/
theorem toWord_append_zeros (bytes : List UInt8) (n : Nat) :
    toWord (bytes ++ List.replicate n 0) = toWord bytes := by
  induction bytes with
  | nil =>
    induction n with
    | zero => rfl
    | succ n ih =>
      rw [List.nil_append] at ih ⊢
      rw [List.replicate_succ]
      unfold toWord
      rw [ih]
      rfl
  | cons b rest ih => rw [List.cons_append, toWord, ih, toWord]

end LittleEndian

namespace Memory

variable {m : Memory} {a x : UInt64}

theorem peek_writeByte (m : Memory) (a x : UInt64) (b : UInt8) :
    (m.writeByte a b).peek x = if x = a then b else m.peek x := by
  unfold writeByte peek
  rw [Std.ExtTreeMap.getElem?_insert]
  by_cases h : x = a
  · simp [h]
  · simp [h, Ne.symm h]

theorem toNat_sub_succ {x a : UInt64} (h : x ≠ a) : (x - (a + 1)).toNat + 1 = (x - a).toNat := by
  have h : x.toNat ≠ a.toNat := fun e => h (UInt64.toNat_inj.1 e)
  have hx := x.toNat_lt
  have ha := a.toNat_lt
  have h1 : (1 : UInt64).toNat = 1 := rfl
  rw [UInt64.toNat_sub, UInt64.toNat_sub, UInt64.toNat_add, h1]
  omega

theorem toNat_sub_succ_self (a : UInt64) : (a - (a + 1)).toNat = 2 ^ 64 - 1 := by
  have ha := a.toNat_lt
  have h1 : (1 : UInt64).toNat = 1 := rfl
  rw [UInt64.toNat_sub, UInt64.toNat_add, h1]
  omega

/-- A property of the byte at `x` which one stored byte alone decides, after a write of several. -/
theorem observe_write {β : Type} {see : Memory → UInt64 → β} {seen : UInt8 → β}
    (hsee : ∀ m a x b, see (writeByte m a b) x = if x = a then seen b else see m x) (m : Memory)
    (a x : UInt64) (bytes : List UInt8) (h : bytes.length ≤ 2 ^ 64) :
    see (m.write a bytes) x = (bytes[(x - a).toNat]?.map seen).getD (see m x) := by
  induction bytes generalizing m a with
  | nil => simp [write]
  | cons b rest ih =>
    rw [List.length_cons] at h
    rw [write, ih _ _ (by omega), hsee]
    by_cases hx : x = a
    · subst hx
      have hlen : rest.length ≤ (x - (x + 1)).toNat := by rw [toNat_sub_succ_self]; omega
      rw [List.getElem?_eq_none hlen, UInt64.sub_self]
      simp
    · rw [← toNat_sub_succ hx, List.getElem?_cons_succ, if_neg hx]

/-- The byte of a write that lands on `x`, if one does. -/
theorem peek_write (m : Memory) (a x : UInt64) (bytes : List UInt8) (h : bytes.length ≤ 2 ^ 64) :
    (m.write a bytes).peek x = bytes[(x - a).toNat]?.getD (m.peek x) := by
  rw [observe_write peek_writeByte m a x bytes h, Option.map_id']

theorem getElem?_cells_writeByte (m : Memory) (a x : UInt64) (b : UInt8) :
    (m.writeByte a b).cells[x]? = if x = a then some b else m.cells[x]? := by
  unfold writeByte
  rw [Std.ExtTreeMap.getElem?_insert]
  by_cases h : x = a
  · simp [h]
  · simp [h, Ne.symm h]

theorem getElem?_cells_write {bytes : List UInt8} (m : Memory) (a x : UInt64)
    (h : bytes.length ≤ 2 ^ 64) :
    (m.write a bytes).cells[x]? = (bytes[(x - a).toNat]?.map some).getD m.cells[x]? :=
  @observe_write _ (fun m x => m.cells[x]?) some getElem?_cells_writeByte m a x bytes h

theorem isMapped_writeByte (m : Memory) (a x : UInt64) (b : UInt8) :
    (m.writeByte a b).isMapped x = (decide (x = a) || m.isMapped x) := by
  unfold writeByte isMapped
  rw [Std.ExtTreeMap.contains_insert, Bool.or_assoc]
  congr 1
  by_cases h : x = a
  · simp [h]
  · simp [h, Ne.symm h]

theorem readByte_writeByte (m : Memory) (a x : UInt64) (b : UInt8) :
    (m.writeByte a b).readByte x = if x = a then .ok b else m.readByte x := by
  unfold readByte
  rw [isMapped_writeByte, peek_writeByte]
  by_cases h : x = a
  · simp [h]
  · simp [h, writeByte]

theorem readByte_write (m : Memory) (a x : UInt64) (bytes : List UInt8)
    (h : bytes.length ≤ 2 ^ 64) : (m.write a bytes).readByte x =
      (bytes[(x - a).toNat]?.map Except.ok).getD (m.readByte x) :=
  observe_write readByte_writeByte m a x bytes h

theorem entry_write (m : Memory) (a : UInt64) (bytes : List UInt8) :
    (m.write a bytes).entry = m.entry ∧ (m.write a bytes).codeEnd = m.codeEnd ∧
      (m.write a bytes).strict = m.strict := by
  induction bytes generalizing m a with
  | nil => exact ⟨rfl, rfl, rfl⟩
  | cons b rest ih => exact ih (m.writeByte a b) (a + 1)

theorem inCode_iff : m.inCode a = true ↔ m.entry ≤ a ∧ a < m.codeEnd := by
  unfold inCode
  rw [Bool.and_eq_true, decide_eq_true_eq, decide_eq_true_eq]

theorem inCode_write (m : Memory) (a x : UInt64) (bytes : List UInt8) :
    (m.write a bytes).inCode x = m.inCode x := by
  obtain ⟨hentry, hend, -⟩ := entry_write m a bytes
  unfold inCode
  rw [hentry, hend]

theorem peek_of_readByte {b : UInt8} (h : m.readByte a = .ok b) : m.peek a = b := by
  unfold readByte at h
  split_ifs at h
  cases h
  rfl

/-- Only strict memory has bytes that cannot be read: those that are not mapped. -/
theorem readByte_error {f : Fault} (h : m.readByte a = .error f) :
    m.strict = true ∧ m.isMapped a = false ∧ f = .unmappedMemory a := by
  unfold readByte at h
  split_ifs at h with hc
  cases h
  simpa using hc

theorem isMapped_of_readByte {b : UInt8} (hs : m.strict = true) (h : m.readByte a = .ok b) :
    m.isMapped a = true := by
  unfold readByte at h
  split_ifs at h with hc
  simpa [hs] using hc

theorem peek_of_not_written (h : a ∉ m.cells) : m.peek a = 0 := by
  unfold peek
  rw [Std.ExtTreeMap.getElem?_eq_none h]
  rfl

/-- There are no more written addresses than written bytes. -/
theorem length_le_cells {addresses : List UInt64} (hd : addresses.Nodup)
    (hw : ∀ a ∈ addresses, a ∈ m.cells) : addresses.length ≤ m.cells.size := by
  have hsub : addresses ⊆ m.cells.keys := fun a ha => Std.ExtTreeMap.mem_keys.2 (hw a ha)
  have hle := (List.subperm_of_subset hd hsub).length_le
  rwa [Std.ExtTreeMap.length_keys] at hle

theorem dump_of_read {n : Nat} {bytes : List UInt8} (h : m.read a n = .ok bytes) :
    m.dump a n = bytes := by
  induction n generalizing a bytes with
  | zero => cases h; rfl
  | succ n ih =>
    unfold read at h
    cases hb : m.readByte a with
    | error f => rw [hb] at h; cases h
    | ok b =>
      cases hr : m.read (a + 1) n with
      | error f => rw [hb] at h; simp only [bind, Except.bind, hr] at h; cases h
      | ok rest =>
        rw [hb] at h
        simp only [bind, Except.bind, hr] at h
        cases h
        rw [dump, ih hr, peek_of_readByte hb]

@[simp] theorem length_dump (m : Memory) (a : UInt64) (n : Nat) : (m.dump a n).length = n := by
  induction n generalizing a with
  | zero => rfl
  | succ n ih => rw [dump, List.length_cons, ih]

theorem length_of_read {n : Nat} {bytes : List UInt8} (h : m.read a n = .ok bytes) :
    bytes.length = n := by
  rw [← dump_of_read h, length_dump]

theorem getElem?_dump (m : Memory) (a : UInt64) {n i : Nat} (h : i < n) :
    (m.dump a n)[i]? = some (m.peek (a + UInt64.ofNat i)) := by
  induction n generalizing a i with
  | zero => omega
  | succ n ih =>
    cases i with
    | zero => simp [dump]
    | succ i =>
      rw [dump, List.getElem?_cons_succ, ih _ (by omega), UInt64.add_assoc, UInt64.add_comm 1]
      rw [UInt64.ofNat_add]
      rfl

/-- The word `v` stands at `a`, and every byte outside of it is the one it was. -/
structure Stored (old new : Memory) (a : UInt64) (w : Width) (v : UInt64) : Prop where
  inside : new.dump a w.wordBytes = LittleEndian.ofWord w.wordBytes v
  outside : ∀ x, w.wordBytes ≤ (x - a).toNat → new.peek x = old.peek x

theorem wordBytes_le (w : Width) : w.wordBytes ≤ 8 := Nat.min_le_right _ _

theorem peek_writeWord (m : Memory) (a x : UInt64) (w : Width) (v : UInt64) :
    (m.writeWord a w v).peek x =
      (LittleEndian.ofWord w.wordBytes v)[(x - a).toNat]?.getD (m.peek x) := by
  have hw := wordBytes_le w
  exact peek_write m a x _ (by rw [LittleEndian.length_ofWord]; omega)

/-- To store a word is to have the bytes of `writeWord`. -/
theorem stored_iff {old new : Memory} {w : Width} {v : UInt64} :
    Stored old new a w v ↔ ∀ x, new.peek x = (old.writeWord a w v).peek x := by
  have hw := wordBytes_le w
  constructor
  · intro h x
    rw [peek_writeWord]
    by_cases hx : (x - a).toNat < w.wordBytes
    · have hd := getElem?_dump new a hx
      have hax : a + UInt64.ofNat (x - a).toNat = x := by
        rw [UInt64.ofNat_toNat, UInt64.add_comm, UInt64.sub_add_cancel]
      rw [h.inside, hax] at hd
      rw [hd]
      rfl
    · rw [h.outside x (by omega), List.getElem?_eq_none (by rw [LittleEndian.length_ofWord]; omega)]
      rfl
  · intro h
    refine ⟨List.ext_getElem? fun i => ?_, fun x hx => ?_⟩
    · by_cases hi : i < w.wordBytes
      · have hai : (a + UInt64.ofNat i - a).toNat = i := by
          rw [UInt64.add_comm, UInt64.add_sub_cancel, UInt64.toNat_ofNat']
          omega
        have hlen : i < (LittleEndian.ofWord w.wordBytes v).length := by
          rwa [LittleEndian.length_ofWord]
        rw [getElem?_dump new a hi, h, peek_writeWord, hai, List.getElem?_eq_getElem hlen]
        rfl
      · rw [List.getElem?_eq_none (by rw [length_dump]; omega),
          List.getElem?_eq_none (by rw [LittleEndian.length_ofWord]; omega)]
    · rw [h, peek_writeWord, List.getElem?_eq_none (by rw [LittleEndian.length_ofWord]; omega)]
      rfl

theorem stored_writeWord (m : Memory) (a : UInt64) (w : Width) (v : UInt64) :
    Stored m (m.writeWord a w v) a w v := stored_iff.2 fun _ => rfl

theorem readWord_lt {w : Width} {v : UInt64} (h : m.readWord a w = .ok v) : v.toNat < w.modulus := by
  obtain ⟨bytes, hbytes, hv⟩ := ok_of_bind h
  cases hv
  have hlength := length_of_read hbytes
  have hle := wordBytes_le w
  unfold Width.modulus Width.wordBits
  rw [← hlength] at hle ⊢
  by_cases h8 : bytes.length = 8
  · rw [h8]
    exact UInt64.toNat_lt _
  · exact LittleEndian.toWord_lt bytes (by omega)

/-- A word that is left alone is stored. -/
theorem stored_of_readWord {w : Width} {v : UInt64} (h : m.readWord a w = .ok v) :
    Stored m m a w v := by
  refine ⟨?_, fun _ _ => rfl⟩
  unfold readWord at h
  cases hr : m.read a w.wordBytes with
  | error f => rw [hr] at h; cases h
  | ok bytes =>
    rw [hr] at h
    cases h
    have hd := dump_of_read hr
    have hlen := length_of_read hr
    rw [hd, ← hlen, LittleEndian.ofWord_toWord bytes (by rw [hlen]; exact wordBytes_le w)]

/-! The map of the memory, which writes leave alone. -/

/-- `n` has the map of `m`, and every written byte of `m` is written in `n`. -/
structure Grows (m n : Memory) : Prop where
  segments : n.segments = m.segments
  codeEnd : n.codeEnd = m.codeEnd
  strict : n.strict = m.strict
  written : ∀ a ∈ m.cells, a ∈ n.cells

namespace Grows

variable {m n k : Memory}

theorem refl (m : Memory) : m.Grows m := ⟨rfl, rfl, rfl, fun _ h => h⟩

theorem trans (h : m.Grows n) (h' : n.Grows k) : m.Grows k where
  segments := h'.segments.trans h.segments
  codeEnd := h'.codeEnd.trans h.codeEnd
  strict := h'.strict.trans h.strict
  written a ha := h'.written a (h.written a ha)

theorem writeByte (m : Memory) (a : UInt64) (b : UInt8) : m.Grows (m.writeByte a b) where
  segments := rfl
  codeEnd := rfl
  strict := rfl
  written x hx := by
    apply Std.ExtTreeMap.mem_insert.2
    right
    exact hx

theorem write (m : Memory) (a : UInt64) (bytes : List UInt8) : m.Grows (m.write a bytes) := by
  induction bytes generalizing m a with
  | nil => exact refl m
  | cons b rest ih => exact (writeByte m a b).trans (ih (m.writeByte a b) (a + 1))

theorem isMapped (h : m.Grows n) {a : UInt64} (ha : m.isMapped a = true) : n.isMapped a = true := by
  simp only [Memory.isMapped, Bool.or_eq_true, Std.ExtTreeMap.contains_iff_mem] at ha ⊢
  rcases ha with hwritten | hsegment
  · left
    exact h.written a hwritten
  · right
    rw [h.segments]
    exact hsegment

theorem entry (h : m.Grows n) : n.entry = m.entry := by
  simp only [Memory.entry, segment?, h.segments]

theorem inCode (h : m.Grows n) (a : UInt64) : n.inCode a = m.inCode a := by
  simp only [Memory.inCode, h.entry, h.codeEnd]

end Grows

end Memory

end LongMode
