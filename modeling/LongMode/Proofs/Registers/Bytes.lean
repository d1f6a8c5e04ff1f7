import LongMode.Proofs.Execute.Target
import LongMode.Proofs.Memory.BitString
import LongMode.Proofs.Registers
/-!
The register file as bytes. A register is a view of some of them: what is read is what stands there,
and what is written is laid over them. A write changes no other byte, except that a general register
written at a doubleword has its upper half cleared; so any two registers share exactly the bytes
that both are views of.
-/

namespace LongMode

/-! The bytes of a word. -/

namespace LittleEndian

def byte (v : UInt64) (i : Fin 8) : UInt8 := (v >>> UInt64.ofNat (8 * i.val)).toUInt8

theorem toNat_byte (v : UInt64) (i : Fin 8) :
    (byte v i).toNat = v.toNat / 2 ^ (8 * i.val) % 2 ^ 8 := by
  have hsmall : 8 * i.val < 64 := by omega
  rw [byte, UInt64.toNat_toUInt8, UInt64.toNat_shiftRight,
    UInt64.toNat_ofNat_of_lt' (lt_trans hsmall (by decide)), Nat.mod_eq_of_lt hsmall,
    Nat.shiftRight_eq_div_pow]

theorem byte_and (u v : UInt64) (i : Fin 8) : byte (u &&& v) i = byte u i &&& byte v i := by
  rw [byte, UInt64.shiftRight_and, UInt64.toUInt8_and]
  rfl

theorem byte_or (u v : UInt64) (i : Fin 8) : byte (u ||| v) i = byte u i ||| byte v i := by
  rw [byte, UInt64.shiftRight_or, UInt64.toUInt8_or]
  rfl

theorem getElem?_ofWord_byte {n : Nat} (v : UInt64) {i : Fin 8} (h : i.val < n) :
    (ofWord n v)[i.val]? = some (byte v i) := by
  obtain ⟨b, hb, hn⟩ := getElem?_ofWord h v
  rw [hb, ← UInt8.toNat_inj.1 (hn.trans (toNat_byte v i).symm)]

/-- The lowest bytes of a word, one by one. -/
theorem ofWord_eq_map {n : Nat} (h : n ≤ 8) (v : UInt64) :
    ofWord n v = ((List.finRange 8).take n).map (byte v) := by
  refine List.ext_getElem? fun i => ?_
  by_cases hi : i < n
  · have h8 : i < 8 := by omega
    rw [getElem?_ofWord_byte v (i := ⟨i, h8⟩) hi, List.getElem?_map, List.getElem?_take_of_lt hi]
    simp [h8]
  · rw [List.getElem?_eq_none (by simpa using hi), List.getElem?_eq_none (by simp; omega)]

theorem toWord_ofWord (w : Width) (v : UInt64) :
    toWord (ofWord w.wordBytes v) = v &&& w.mask := by
  rw [← UInt64.toNat_inj, toNat_toWord_ofWord (Memory.wordBytes_le w), Width.toNat_and_mask]
  rfl

theorem toWord_and_mask {w : Width} {values : List UInt8} (h : values.length = w.wordBytes) :
    toWord values &&& w.mask = toWord values := by
  have hvalues := ofWord_toWord values (h ▸ Memory.wordBytes_le w)
  rw [← toWord_ofWord, ← h, hvalues]

/-- Words with the same bytes are the same. -/
theorem ext_byte {u v : UInt64} (h : ∀ i, byte u i = byte v i) : u = v := by
  have hbytes : ofWord 8 u = ofWord 8 v := by
    rw [ofWord_eq_map le_rfl, ofWord_eq_map le_rfl]
    exact List.map_congr_left fun i _ => h i
  have hword := congrArg toWord hbytes
  rw [show 8 = Width.qword.wordBytes from rfl, toWord_ofWord, toWord_ofWord] at hword
  have hall (x : UInt64) : x &&& Width.qword.mask = x := UInt64.and_neg_one
  rwa [hall, hall] at hword

/-- The low part of a word laid over another one. -/
theorem byte_low_part (w : Width) (old v : UInt64) (i : Fin 8) :
    byte ((old &&& ~~~w.mask) ||| (v &&& w.mask)) i =
      if i.val < w.bytes then byte v i else byte old i := by
  have hmask : byte w.mask i = if i.val < w.bytes then 0xFF else 0 := by
    cases w <;> revert i <;> decide
  have hrest : byte (~~~w.mask) i = if i.val < w.bytes then 0 else 0xFF := by
    cases w <;> revert i <;> decide
  have hall (x : UInt8) : x &&& 0xFF = x := UInt8.and_neg_one
  rw [byte_or, byte_and, byte_and, hmask, hrest]
  split_ifs <;> simp [hall]

/-- The lowest byte of a word laid over the second byte of another one. -/
theorem byte_second (old v : UInt64) (i : Fin 8) :
    byte ((old &&& ~~~(0xFF00 : UInt64)) ||| ((v &&& 0xFF) <<< 8)) i =
      if i = 1 then byte v 0 else byte old i := by
  have hplace : (v &&& 0xFF) <<< 8 = v <<< 8 &&& 0xFF00 := UInt64.shiftLeft_and
  have hmask : byte 0xFF00 i = if i = 1 then 0xFF else 0 := by revert i; decide
  have hrest : byte (~~~(0xFF00 : UInt64)) i = if i = 1 then 0 else 0xFF := by revert i; decide
  have hall (x : UInt8) : x &&& 0xFF = x := UInt8.and_neg_one
  rw [hplace, byte_or, byte_and, byte_and, hmask, hrest]
  split_ifs with h
  · subst h
    simp only [hall, UInt8.and_zero, UInt8.zero_or]
    rw [← UInt8.toNat_inj, toNat_byte, toNat_byte, UInt64.toNat_shiftLeft, Nat.shiftLeft_eq]
    change v.toNat * 2 ^ 8 % 2 ^ 64 / 2 ^ 8 % 2 ^ 8 = v.toNat / 2 ^ 0 % 2 ^ 8
    omega
  · simp [hall]

theorem byte_low_half (v : UInt64) (i : Fin 8) :
    byte (v &&& 0xFFFF_FFFF) i = if i.val < 4 then byte v i else 0 := by
  have hmask : byte 0xFFFF_FFFF i = if i.val < 4 then 0xFF else 0 := by revert i; decide
  have hall (x : UInt8) : x &&& 0xFF = x := UInt8.and_neg_one
  rw [byte_and, hmask]
  split_ifs <;> simp [hall]

end LittleEndian

/-- A byte of the register file: of one of its words, or of one of its vectors. -/
inductive RegisterByte where
  | word (slot : Fin 32) (i : Fin 8)
  | vector (slot : Fin 16) (i : Fin 32)
deriving DecidableEq, Repr

namespace RegisterFile

def byte (f : RegisterFile) : RegisterByte → UInt8
  | .word slot i => LittleEndian.byte (f.slots.get slot) i
  | .vector slot i => (f.vectors.get slot).get i

/-- There is nothing in a register file but its bytes. -/
theorem ext_byte {f g : RegisterFile} (h : f.byte = g.byte) : f = g := by
  obtain ⟨slots, vectors⟩ := f
  obtain ⟨slots', vectors'⟩ := g
  congr 1
  · refine Vector.ext fun s hs => LittleEndian.ext_byte fun i => ?_
    exact congrFun h (.word ⟨s, hs⟩ i)
  · refine Vector.ext fun s hs => Vector.ext fun i hi => ?_
    exact congrFun h (.vector ⟨s, hs⟩ ⟨i, hi⟩)

end RegisterFile

namespace Register

open LittleEndian RegisterFile

def firstBytes {n : Nat} (place : Fin n → RegisterByte) (count : Nat) : List RegisterByte :=
  ((List.finRange n).take count).map place

/-- The bytes that the register is a view of, lowest first. A high byte is the second one of its
owner. -/
def bytes (r : Register) : List RegisterByte :=
  match r.bank with
  | .general =>
    if r.isHighByte then (firstBytes (.word (generalSlot r.owner)) 2).drop 1
    else firstBytes (.word (generalSlot r.code)) r.width.bytes
  | .mmx => firstBytes (.word (mmxSlot r.code)) r.width.bytes
  | .sse => firstBytes (.vector r.code) r.width.bytes

def lowBytes (r : Register) : List RegisterByte := r.bytes.take 8

/-- The bytes that are cleared whenever the register is written. -/
def cleared (r : Register) : List RegisterByte :=
  if r.bank = .general ∧ r.width = .dword then
    ((List.finRange 8).drop 4).map (.word (generalSlot r.code))
  else []

/-- A byte after `values` have been laid over the lowest bytes of the register. -/
def overlay (r : Register) (values : List UInt8) (old : RegisterByte → UInt8) (b : RegisterByte) :
    UInt8 :=
  if b ∈ r.cleared then 0 else values[r.bytes.idxOf b]?.getD (old b)

/-! Where values land that are laid over a row of bytes. -/

section

variable {n count : Nat} {place : Fin n → RegisterByte} {values : List UInt8} {b : RegisterByte}

theorem mem_firstBytes : b ∈ firstBytes place count ↔ ∃ i : Fin n, i.val < count ∧ place i = b := by
  simp only [firstBytes, List.mem_map, List.mem_take_iff_getElem, List.getElem_finRange,
    List.length_finRange]
  constructor
  · rintro ⟨i, ⟨k, hk, rfl⟩, hb⟩
    exact ⟨_, (lt_min_iff.1 hk).1, hb⟩
  · rintro ⟨i, hi, hb⟩
    exact ⟨i, ⟨i.val, lt_min hi i.isLt, rfl⟩, hb⟩

theorem word_injective (slot : Fin 32) : (RegisterByte.word slot).Injective :=
  fun _ _ h => (RegisterByte.word.inj h).2

theorem vector_injective (slot : Fin 16) : (RegisterByte.vector slot).Injective :=
  fun _ _ h => (RegisterByte.vector.inj h).2

theorem nodup_firstBytes (hplace : place.Injective) (count : Nat) :
    (firstBytes place count).Nodup :=
  ((List.nodup_finRange n).sublist (List.take_sublist _ _)).map hplace

theorem getElem?_idxOf_of_not_mem (hlength : values.length ≤ min count n)
    (hb : b ∉ firstBytes place count) : values[(firstBytes place count).idxOf b]? = none := by
  rw [List.idxOf_eq_length hb]
  exact List.getElem?_eq_none (by simpa [firstBytes] using hlength)

theorem getElem?_idxOf_place (hplace : place.Injective) (hlength : values.length ≤ min count n)
    (i : Fin n) : values[(firstBytes place count).idxOf (place i)]? = values[i.val]? := by
  by_cases hi : i.val < count
  · have hpos : i.val < (firstBytes place count).length := by
      simp only [firstBytes, List.length_map, List.length_take, List.length_finRange]
      omega
    have hplaced : (firstBytes place count)[i.val] = place i := by simp [firstBytes]
    rw [← hplaced, (nodup_firstBytes hplace count).idxOf_getElem i.val hpos]
  · have hb : place i ∉ firstBytes place count := by
      intro h
      obtain ⟨j, hj, hji⟩ := mem_firstBytes.1 h
      exact hi (hplace hji ▸ hj)
    rw [getElem?_idxOf_of_not_mem hlength hb, List.getElem?_eq_none (by omega)]

theorem getElem?_idxOf_word {slot : Fin 32} (hlength : values.length ≤ min count 8) (s : Fin 32)
    (i : Fin 8) : values[(firstBytes (.word slot) count).idxOf (.word s i)]? =
      if s = slot then values[i.val]? else none := by
  split_ifs with hs
  · subst hs
    exact getElem?_idxOf_place (word_injective s) hlength i
  · refine getElem?_idxOf_of_not_mem hlength fun h => ?_
    obtain ⟨j, -, hj⟩ := mem_firstBytes.1 h
    exact hs (RegisterByte.word.inj hj).1.symm

theorem getElem?_idxOf_vector {slot : Fin 16} (hlength : values.length ≤ min count 32) (s : Fin 16)
    (i : Fin 32) : values[(firstBytes (.vector slot) count).idxOf (.vector s i)]? =
      if s = slot then values[i.val]? else none := by
  split_ifs with hs
  · subst hs
    exact getElem?_idxOf_place (vector_injective s) hlength i
  · refine getElem?_idxOf_of_not_mem hlength fun h => ?_
    obtain ⟨j, -, hj⟩ := mem_firstBytes.1 h
    exact hs (RegisterByte.vector.inj hj).1.symm

end

/-! The bytes of the file behind a write. -/

theorem byte_set_slot (f : RegisterFile) (slot s : Fin 32) (v : UInt64) (i : Fin 8) :
    ({ f with slots := f.slots.set slot v slot.isLt } : RegisterFile).byte (.word s i) =
      if s = slot then LittleEndian.byte v i else f.byte (.word s i) := by
  change LittleEndian.byte (f.slots.set slot v)[s] i =
    if s = slot then LittleEndian.byte v i else LittleEndian.byte f.slots[s] i
  split_ifs with hs
  · subst hs
    simp
  · have hval : slot.val ≠ s.val := fun h => hs (Fin.ext h).symm
    simp [hval]

theorem byte_written (w : Width) (old v : UInt64) (i : Fin 8) :
    LittleEndian.byte (match w with
      | .byte | .word => (old &&& ~~~w.mask) ||| (v &&& w.mask)
      | .dword => v &&& 0xFFFF_FFFF
      | _ => v) i =
      if i.val < w.bytes then LittleEndian.byte v i
      else if w = .dword then 0 else LittleEndian.byte old i := by
  have hi := i.isLt
  cases w with
  | byte | word => exact byte_low_part _ old v i
  | dword => exact byte_low_half v i
  | qword | xmm | ymm => rw [if_pos (by simp only [Width.bytes]; omega)]

theorem getElem?_ofWord_width (w : Width) (v : UInt64) (i : Fin 8) :
    (ofWord w.wordBytes v)[i.val]? =
      if i.val < w.bytes then some (LittleEndian.byte v i) else none := by
  split_ifs with hi
  · exact getElem?_ofWord_byte v (by unfold Width.wordBytes; omega)
  · refine List.getElem?_eq_none ?_
    rw [length_ofWord]
    unfold Width.wordBytes
    omega

theorem byte_overlayVector {r : Register} (hbank : r.bank = .sse) (f : RegisterFile)
    {values : List UInt8} (hlength : values.length ≤ r.width.bytes) :
    (f.overlayVector r.code values).byte = r.overlay values f.byte := by
  have hbytes : r.bytes = firstBytes (.vector r.code) r.width.bytes := by simp only [bytes, hbank]
  have hcleared : r.cleared = [] := by simp [cleared, hbank]
  have hroom : values.length ≤ min r.width.bytes 32 := by
    have : r.width.bytes ≤ 32 := by cases r.width <;> decide
    omega
  funext b
  rw [overlay, hcleared, if_neg List.not_mem_nil, hbytes]
  cases b with
  | word s i =>
    rw [getElem?_idxOf_of_not_mem hroom (by simp [mem_firstBytes])]
    rfl
  | vector s i =>
    rw [getElem?_idxOf_vector hroom]
    change (f.vectors.set r.code (Vector.ofFn fun i =>
      values[i.val]?.getD f.vectors[r.code][i]))[s][i] = Option.getD _ f.vectors[s][i]
    split_ifs with hs
    · subst hs
      simp
    · have hval : r.code.val ≠ s.val := fun h => hs (Fin.ext h).symm
      simp [hval]

theorem bank_width_of_isHighByte {r : Register} (h : r.isHighByte = true) :
    r.bank = .general ∧ r.width = .byte := by
  simp only [isHighByte, Bool.and_eq_true, beq_iff_eq] at h
  exact h.1.1.1

theorem byte_writeHigh {r : Register} (h : r.isHighByte = true) (f : RegisterFile) (v : UInt64) :
    (f.writeHigh r.owner v).byte = r.overlay (ofWord r.width.wordBytes v) f.byte := by
  obtain ⟨hbank, hwidth⟩ := bank_width_of_isHighByte h
  have hbytes : r.bytes = [.word (generalSlot r.owner) 1] := by
    simp only [bytes, hbank, h, if_true]
    rfl
  have hcleared : r.cleared = [] := by simp [cleared, hwidth]
  have hvalues : ofWord r.width.wordBytes v = [LittleEndian.byte v 0] := by
    rw [hwidth]
    rfl
  funext b
  rw [overlay, hcleared, if_neg List.not_mem_nil, hbytes, hvalues]
  cases b with
  | word s i =>
    rw [writeHigh, byte_set_slot, byte_second]
    by_cases hs : s = generalSlot r.owner
    · subst hs
      by_cases hi : i = 1
      · simp [hi]
      · have hnot : RegisterByte.word (generalSlot r.owner) i ∉
            [.word (generalSlot r.owner) 1] := by simp [hi]
        rw [if_pos rfl, if_neg hi, List.idxOf_eq_length hnot]
        rfl
    · simp [hs]
  | vector s i => simp [writeHigh, RegisterFile.byte]

theorem mem_cleared {r : Register} {b : RegisterByte} : b ∈ r.cleared ↔
    r.bank = .general ∧ r.width = .dword ∧
      ∃ i : Fin 8, 4 ≤ i.val ∧ .word (generalSlot r.code) i = b := by
  have hdrop : (List.finRange 8).drop 4 = [4, 5, 6, 7] := by decide
  have hall : ∀ i : Fin 8, i = 4 ∨ i = 5 ∨ i = 6 ∨ i = 7 ↔ 4 ≤ i.val := by decide
  unfold cleared
  split_ifs with h
  · simp only [hdrop, List.mem_map, List.mem_cons, List.not_mem_nil, or_false, hall, h, true_and]
  · simp only [List.not_mem_nil, false_iff]
    exact fun hb => h ⟨hb.1, hb.2.1⟩

/-- A register at the low end of a word that is replaced: its own bytes are those of `v`, and the
others are cleared or old. -/
theorem byte_set_row {r : Register} {slot : Fin 32} {v new : UInt64} {f : RegisterFile}
    (hbytes : r.bytes = firstBytes (.word slot) r.width.bytes)
    (hcleared : ∀ s i, .word s i ∈ r.cleared → s = slot ∧ r.width.bytes ≤ i.val)
    (hnew : ∀ i, LittleEndian.byte new i = if i.val < r.width.bytes then LittleEndian.byte v i
      else if .word slot i ∈ r.cleared then 0 else LittleEndian.byte (f.slots.get slot) i) :
    ({ f with slots := f.slots.set slot new slot.isLt } : RegisterFile).byte =
      r.overlay (ofWord r.width.wordBytes v) f.byte := by
  have hroom : (ofWord r.width.wordBytes v).length ≤ min r.width.bytes 8 := (length_ofWord _ _).le
  funext b
  rw [overlay, hbytes]
  cases b with
  | word s i =>
    rw [byte_set_slot, getElem?_idxOf_word hroom, getElem?_ofWord_width]
    by_cases hs : s = slot
    · subst hs
      rw [if_pos rfl, if_pos rfl, hnew]
      by_cases hi : i.val < r.width.bytes
      · have hb : .word s i ∉ r.cleared := fun h => absurd (hcleared s i h).2 (by omega)
        simp [hi, hb]
      · simp [hi, RegisterFile.byte]
    · have hb : .word s i ∉ r.cleared := fun h => hs (hcleared s i h).1
      simp [hs, hb]
  | vector s i =>
    have hb : .vector s i ∉ r.cleared := by simp [mem_cleared]
    rw [if_neg hb, getElem?_idxOf_of_not_mem hroom (by simp [mem_firstBytes])]
    rfl

/-- What is written to a register is laid over its bytes. -/
theorem byte_set (r : Register) (f : RegisterFile) (v : UInt64) :
    (r.set f v).byte = r.overlay (ofWord r.width.wordBytes v) f.byte := by
  unfold set
  cases hbank : r.bank with
  | general =>
    dsimp only
    split_ifs with hhigh
    · exact byte_writeHigh hhigh f v
    · refine byte_set_row (by simp [bytes, hbank, hhigh]) (fun s i h => ?_) fun i => ?_
      · obtain ⟨-, hw, j, hj, hb⟩ := mem_cleared.1 h
        obtain ⟨rfl, rfl⟩ := RegisterByte.word.inj hb
        exact ⟨rfl, by rw [hw]; exact hj⟩
      · refine (byte_written _ _ _ _).trans ?_
        split_ifs with hi hw hc hc
        · rfl
        · rfl
        · have hfour : 4 ≤ i.val := by rw [hw] at hi; exact not_lt.1 hi
          exact absurd (mem_cleared.2 ⟨hbank, hw, i, hfour, rfl⟩) hc
        · exact absurd (mem_cleared.1 hc).2.1 hw
        · rfl
  | mmx =>
    have hcleared : r.cleared = [] := by simp [cleared, hbank]
    refine byte_set_row (by simp [bytes, hbank]) (by simp [hcleared]) fun i => ?_
    rw [hcleared, if_neg List.not_mem_nil]
    exact byte_low_part _ _ _ _
  | sse => exact byte_overlayVector hbank f (by rw [length_ofWord]; exact Nat.min_le_left _ _)

/-! What is read. -/

theorem map_byte_row (f : RegisterFile) (slot : Fin 32) {count : Nat} (h : count ≤ 8) :
    (firstBytes (.word slot) count).map f.byte = ofWord count (f.slots.get slot) := by
  rw [firstBytes, List.map_map, ofWord_eq_map h]
  rfl

theorem map_byte_vector (f : RegisterFile) (slot : Fin 16) (count : Nat) :
    (firstBytes (.vector slot) count).map f.byte = (f.vectors.get slot).toList.take count := by
  have hall : (List.finRange 32).map (f.vectors.get slot).get = (f.vectors.get slot).toList :=
    List.ext_getElem (by simp) fun i h h' => by
      rw [List.getElem_map, List.getElem_finRange, Vector.getElem_toList]
      rfl
  rw [firstBytes, List.map_map, ← hall, List.map_take]
  rfl

theorem take_firstBytes {n : Nat} (place : Fin n → RegisterByte) (w : Width) :
    (firstBytes place w.bytes).take 8 = firstBytes place w.wordBytes := by
  rw [firstBytes, firstBytes, ← List.map_take, List.take_take, Nat.min_comm]
  rfl

/-- The number in a register is the one in its low bytes. -/
theorem fetch_eq (r : Register) (f : RegisterFile) :
    r.fetch f = toWord (r.lowBytes.map f.byte) := by
  have hw := Memory.wordBytes_le r.width
  unfold fetch lowBytes bytes
  cases r.bank with
  | general =>
    dsimp only
    split_ifs with hhigh
    · exact (toWord_ofWord .byte (f.slots[generalSlot r.owner] >>> 8)).symm
    · rw [take_firstBytes, map_byte_row f _ hw, toWord_ofWord]
      rfl
  | mmx =>
    dsimp only
    rw [take_firstBytes, map_byte_row f _ hw, toWord_ofWord]
    rfl
  | sse =>
    dsimp only
    rw [List.map_take, map_byte_vector]
    refine toWord_and_mask ?_
    have h32 : r.width.bytes ≤ 32 := by cases r.width <;> decide
    simp only [readVector, List.length_take, Vector.length_toList, Width.wordBytes]
    omega

/-! All bytes of a register at once. -/

/-- The register is as wide as its width says: only vectors go beyond a word. -/
def Wide (r : Register) : Prop := r.bank ≠ .sse → r.width.bytes ≤ 8

instance (r : Register) : Decidable r.Wide := inferInstanceAs (Decidable (_ → _))

theorem length_firstBytes {n : Nat} (place : Fin n → RegisterByte) (count : Nat) :
    (firstBytes place count).length = min count n := by simp [firstBytes]

theorem length_bytes_eq (r : Register) :
    r.bytes.length = min r.width.bytes (if r.bank = .sse then 32 else 8) := by
  unfold bytes
  cases hbank : r.bank with
  | general =>
    by_cases hhigh : r.isHighByte = true
    · simp only [hhigh, if_true, (bank_width_of_isHighByte hhigh).2]
      rfl
    · simp only [hhigh]
      exact length_firstBytes _ _
  | mmx | sse => exact length_firstBytes _ _

theorem length_bytes {r : Register} (h : r.Wide) : r.bytes.length = r.width.bytes := by
  rw [length_bytes_eq]
  split_ifs with hbank
  · exact Nat.min_eq_left (by cases r.width <;> decide)
  · exact Nat.min_eq_left (h hbank)

theorem wordBytes_le_length (r : Register) : r.width.wordBytes ≤ r.bytes.length := by
  rw [length_bytes_eq, Width.wordBytes]
  split_ifs <;> omega

theorem take_wordBytes (r : Register) : r.bytes.take r.width.wordBytes = r.lowBytes := by
  have hall : r.bytes.take r.width.bytes = r.bytes :=
    List.take_of_length_le (by rw [length_bytes_eq]; exact Nat.min_le_left _ _)
  rw [lowBytes, Width.wordBytes, Nat.min_comm, ← List.take_take, hall]

theorem nodup_bytes (r : Register) : r.bytes.Nodup := by
  unfold bytes
  cases r.bank with
  | general =>
    dsimp only
    split_ifs
    · exact List.nodup_singleton _
    · exact nodup_firstBytes (word_injective _) _
  | mmx => exact nodup_firstBytes (word_injective _) _
  | sse => exact nodup_firstBytes (vector_injective _) _

theorem not_mem_cleared {r : Register} {b : RegisterByte} (hb : b ∈ r.bytes) : b ∉ r.cleared := by
  intro hc
  obtain ⟨hbank, hw, i, hi, rfl⟩ := mem_cleared.1 hc
  have hhigh : r.isHighByte = false := by simp [isHighByte, hw]
  simp only [bytes, hbank, hhigh, hw] at hb
  obtain ⟨j, hj, hji⟩ := mem_firstBytes.1 hb
  obtain rfl := word_injective _ hji
  exact absurd hj (not_lt.2 hi)

/-- What is laid over a register stands in it. -/
theorem map_overlay {r : Register} {values : List UInt8} (h : values.length ≤ r.bytes.length)
    (old : RegisterByte → UInt8) :
    (r.bytes.take values.length).map (r.overlay values old) = values := by
  refine List.ext_getElem (by simpa using h) fun i hi hi' => ?_
  have hpos : i < r.bytes.length := by omega
  rw [List.getElem_map, List.getElem_take, overlay,
    if_neg (not_mem_cleared (List.getElem_mem hpos)), (nodup_bytes r).idxOf_getElem i hpos,
    List.getElem?_eq_getElem hi', Option.getD_some]

theorem fetchBytes_eq {r : Register} (h : r.Wide) (f : RegisterFile) :
    r.fetchBytes f = .ok (r.bytes.map f.byte) := by
  cases hbank : r.bank with
  | general | mmx =>
    have h8 : r.width.bytes ≤ 8 := h (by rw [hbank]; decide)
    have hlength : (r.bytes.map f.byte).length = r.width.bytes := by
      rw [List.length_map, length_bytes h]
    have hlow : r.lowBytes = r.bytes := List.take_of_length_le (by rw [length_bytes h]; exact h8)
    have hvalues := ofWord_toWord (r.bytes.map f.byte) (hlength ▸ h8)
    rw [hlength] at hvalues
    unfold fetchBytes
    simp only [hbank, if_pos h8]
    rw [fetch_eq, hlow, hvalues]
  | sse =>
    unfold fetchBytes bytes
    simp only [hbank]
    rw [map_byte_vector]
    rfl

theorem setBytes_eq {r : Register} (h : r.Wide) (f : RegisterFile) {values : List UInt8}
    (hlength : values.length = r.width.bytes) :
    ∃ g, r.setBytes f values = .ok g ∧ g.byte = r.overlay values f.byte := by
  unfold setBytes
  rw [if_neg (not_not.2 hlength)]
  cases hbank : r.bank with
  | general | mmx =>
    have h8 : r.width.bytes ≤ 8 := h (by rw [hbank]; decide)
    have hwidth : r.width.wordBytes = values.length := by
      rw [hlength]
      exact Nat.min_eq_left h8
    dsimp only
    rw [if_pos (hlength ▸ h8)]
    refine ⟨_, rfl, ?_⟩
    rw [byte_set, hwidth, ofWord_toWord values (hlength ▸ h8)]
  | sse =>
    have h32 : r.width.bytes ≤ 32 := by cases r.width <;> decide
    exact ⟨_, if_pos (hlength ▸ h32), byte_overlayVector hbank f hlength.le⟩

/-- From `f` to `g`, `values` have been laid over the lowest bytes of the register. -/
structure Laid (r : Register) (values : List UInt8) (f g : RegisterFile) : Prop where
  written : (r.bytes.take values.length).map g.byte = values
  cleared : ∀ b ∈ r.cleared, g.byte b = 0
  kept : ∀ b ∉ r.bytes.take values.length, b ∉ r.cleared → g.byte b = f.byte b

theorem laid_of_overlay {r : Register} {values : List UInt8} {f g : RegisterFile}
    (h : values.length ≤ r.bytes.length) (hg : g.byte = r.overlay values f.byte) :
    r.Laid values f g where
  written := by rw [hg, map_overlay h]
  cleared b hb := by rw [hg, overlay, if_pos hb]
  kept b hb hc := by
    rw [hg, overlay, if_neg hc, List.getElem?_eq_none, Option.getD_none]
    -- a byte of the register that is not among the first ones stands behind them
    by_contra hlt
    rw [not_le] at hlt
    have hpos := hlt.trans_le h
    refine hb (List.mem_take_iff_getElem.2 ⟨_, lt_min hlt hpos, ?_⟩)
    exact List.getElem_idxOf hpos

/-- That says all there is to say of `g`. -/
theorem Laid.unique {r : Register} {values : List UInt8} {f g k : RegisterFile}
    (hg : r.Laid values f g) (hk : r.Laid values f k) : g = k := by
  refine RegisterFile.ext_byte (funext fun b => ?_)
  by_cases hb : b ∈ r.bytes.take values.length
  · exact List.map_inj_left.1 (hg.written.trans hk.written.symm) b hb
  · by_cases hc : b ∈ r.cleared
    · rw [hg.cleared b hc, hk.cleared b hc]
    · rw [hg.kept b hb hc, hk.kept b hb hc]

theorem laid_set (r : Register) (f : RegisterFile) (v : UInt64) :
    r.Laid (ofWord r.width.wordBytes v) f (r.set f v) :=
  laid_of_overlay (by rw [length_ofWord]; exact wordBytes_le_length r) (byte_set r f v)

theorem Laid.fetch {r : Register} {f g : RegisterFile} {v : UInt64}
    (h : r.Laid (ofWord r.width.wordBytes v) f g) : r.fetch g = v &&& r.width.mask := by
  have hwritten := h.written
  rw [length_ofWord, take_wordBytes] at hwritten
  rw [fetch_eq, hwritten, toWord_ofWord]

/-- A register is a view of its bytes. It reads back the low part of what is written to it, whatever
else shows those bytes shows the new ones, and the other bytes are the old ones unless they are
cleared. All bytes of a register are written and read alike, and any other number of bytes is
refused. -/
theorem views_laid (r : Register) (f : RegisterFile) :
    (∀ v, r.fetch (r.set f v) = v &&& r.width.mask ∧
      (∀ g, r.Laid (ofWord r.width.wordBytes v) f g ↔ g = r.set f v) ∧
      ∀ q : Register,
        q.fetch (r.set f v) =
          toWord (q.lowBytes.map (r.overlay (ofWord r.width.wordBytes v) f.byte)) ∧
        ((∀ b ∈ q.lowBytes, b ∉ r.lowBytes ∧ b ∉ r.cleared) →
          q.fetch (r.set f v) = q.fetch f)) ∧
    (r.Wide → ∀ values : List UInt8,
      (values.length = r.width.bytes → ∃ g, r.setBytes f values = .ok g ∧
        r.fetchBytes g = .ok values ∧ r.Laid values f g) ∧
      (values.length ≠ r.width.bytes →
        r.setBytes f values = .error (.registerBytes r.mnemonic values.length))) := by
  refine ⟨fun v => ?_, fun hr values => ⟨fun hlength => ?_, fun hlength => if_pos hlength⟩⟩
  · have hlaid := laid_set r f v
    refine ⟨hlaid.fetch, fun g => ⟨fun hg => hg.unique hlaid, fun hg => hg ▸ hlaid⟩,
      fun q => ⟨by rw [fetch_eq, byte_set], fun hapart => ?_⟩⟩
    rw [fetch_eq, fetch_eq]
    refine congrArg toWord (List.map_congr_left fun b hb => ?_)
    refine hlaid.kept b ?_ (hapart b hb).2
    rw [length_ofWord, take_wordBytes]
    exact (hapart b hb).1
  · obtain ⟨g, hg, hbytes⟩ := setBytes_eq hr f hlength
    have hroom : values.length = r.bytes.length := hlength.trans (length_bytes hr).symm
    have hlaid := laid_of_overlay hroom.le hbytes
    have hwritten := hlaid.written
    rw [hroom, List.take_length] at hwritten
    exact ⟨g, hg, by rw [fetchBytes_eq hr, hwritten], hlaid⟩

def filled : RegisterFile := (accumulator .qword).set .empty (-1)

/-- `AH` is the second byte of `EAX`; a doubleword written to `EAX` clears what `RAX` has above it
and does not show in `CH`. -/
theorem accumulator_views :
    (accumulator .qword).fetch (highAccumulator.set filled 0x12) = 0xFFFF_FFFF_FFFF_12FF ∧
      highAccumulator.fetch ((accumulator .dword).set filled 0x3456_789A) = 0x78 ∧
      (accumulator .qword).fetch ((accumulator .dword).set filled 0x3456_789A) = 0x3456_789A ∧
      (⟨.general, 5, .byte, false⟩ : Register).fetch ((accumulator .dword).set filled 0x3456_789A) =
        (⟨.general, 5, .byte, false⟩ : Register).fetch filled ∧
      (∃ g, (⟨.sse, 3, .xmm, false⟩ : Register).setBytes filled (List.replicate 16 7) = .ok g ∧
        (⟨.sse, 3, .xmm, false⟩ : Register).fetchBytes g = .ok (List.replicate 16 7)) ∧
      (⟨.sse, 3, .xmm, false⟩ : Register).setBytes filled [7] =
        .error (.registerBytes "XMM3" 1) := by
  have hhigh := ((views_laid highAccumulator filled).1 0x12).2.2
  have hdouble := ((views_laid (accumulator .dword) filled).1 0x3456_789A).2.2
  have hall := (views_laid ⟨.sse, 3, .xmm, false⟩ filled).2 (by decide)
  obtain ⟨g, hg, hread, -⟩ := (hall (List.replicate 16 7)).1 (by decide)
  refine ⟨?_, ?_, ?_, ?_, ⟨g, hg, hread⟩, (hall [7]).2 (by decide)⟩
  · rw [(hhigh _).1]
    decide +kernel
  · rw [(hdouble _).1]
    decide +kernel
  · rw [(hdouble _).1]
    decide +kernel
  · exact (hdouble _).2 (by decide)

end Register

end LongMode
