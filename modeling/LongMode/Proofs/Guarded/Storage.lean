import LongMode.Proofs.Guarded.Words
import LongMode.Proofs.Memory
import LongMode.Register.Name
/-!
Registers and memory with every access to a table or to a sequence of bytes guarded. No access goes
beyond the end, whichever the register, its width or the address is.
-/

namespace LongMode

open LittleEndian

theorem Register.owner_lt {r : Register} (h : r.isHighByte = true) :
    4 ≤ r.code.val ∧ r.code.val - 4 < 4 := by
  simp only [isHighByte, Bool.and_eq_true, decide_eq_true_eq] at h
  omega

namespace Guarded

/-! Accesses. -/

section

variable {α : Type} {n : Nat}

def entry (xs : Vector α n) (i : Nat) : Except Crash α :=
  if h : i < n then .ok xs[i] else .error (.index i n)

def replaced (xs : Vector α n) (i : Nat) (x : α) : Except Crash (Vector α n) :=
  if h : i < n then .ok (xs.set i x) else .error (.index i n)

def leading (xs : List α) (k : Nat) : Except Crash (List α) :=
  if k ≤ xs.length then .ok (xs.take k) else .error (.index k xs.length)

theorem entry_ok (xs : Vector α n) {i : Nat} (h : i < n) : entry xs i = .ok xs[i] := dif_pos h

theorem replaced_ok (xs : Vector α n) {i : Nat} (h : i < n) (x : α) :
    replaced xs i x = .ok (xs.set i x) := dif_pos h

theorem leading_ok {xs : List α} {k : Nat} (h : k ≤ xs.length) : leading xs k = .ok (xs.take k) :=
  if_pos h

end

/-! Registers. -/

def ownerCode (r : Register) : Except Crash Nat := do
  let code ← subtract r.code 4
  if code < 4 then return code else .error (.index code 4)

def fetch (r : Register) (f : RegisterFile) : Except Crash UInt64 :=
  match r.bank with
  | .general =>
    if r.isHighByte then do
      let code ← ownerCode r
      let v ← entry f.slots code
      return (v >>> 8) &&& 0xFF
    else do
      let v ← entry f.slots r.code
      return v &&& r.width.mask
  | .mmx => do
    let v ← entry f.slots (16 + r.code % 8)
    return v &&& r.width.mask
  | .sse => do
    let slot ← entry f.vectors r.code
    let bytes ← leading slot.toList r.width.bytes
    let low ← leading bytes (min bytes.length 8)
    return toWord low &&& r.width.mask

def set (r : Register) (f : RegisterFile) (v : UInt64) : Except Crash RegisterFile :=
  match r.bank with
  | .general => do
    let code ← if r.isHighByte then ownerCode r else .ok r.code.val
    let old ← entry f.slots code
    let new :=
      if r.isHighByte then (old &&& ~~~(0xFF00 : UInt64)) ||| ((v &&& 0xFF) <<< 8)
      else match r.width with
        | .byte | .word => (old &&& ~~~r.width.mask) ||| (v &&& r.width.mask)
        | .dword => v &&& 0xFFFF_FFFF
        | _ => v
    let slots ← replaced f.slots code new
    return { f with slots }
  | .mmx => do
    let old ← entry f.slots (16 + r.code % 8)
    let new := (old &&& ~~~r.width.mask) ||| (v &&& r.width.mask)
    let slots ← replaced f.slots (16 + r.code % 8) new
    return { f with slots }
  | .sse => do
    let bytes ← leading (ofWord 8 v) (min r.width.bytes 8)
    let old ← entry f.vectors r.code
    let _ ← leading old.toList bytes.length
    return f.overlayVector r.code bytes

def mnemonic (r : Register) : Except Crash String :=
  match r.bank with
  | .general =>
    if r.isHighByte then do
      let code ← ownerCode r
      entry Register.highNames code
    else match r.width with
      | .byte => entry Register.byteNames r.code
      | .word => entry Register.wordNames r.code
      | .dword => entry Register.dwordNames r.code
      | _ => entry Register.qwordNames r.code
  | _ => .ok r.mnemonic

theorem ownerCode_ok {r : Register} (h : r.isHighByte = true) : ownerCode r = .ok r.owner.val := by
  obtain ⟨hle, hlt⟩ := Register.owner_lt h
  unfold ownerCode
  rw [subtract_ok hle, ok_bind, if_pos hlt]
  rfl

theorem fetch_eq (r : Register) (f : RegisterFile) : fetch r f = .ok (r.fetch f) := by
  unfold fetch Register.fetch
  cases r.bank with
  | general =>
    dsimp only
    split_ifs with h
    · rw [ownerCode_ok h, ok_bind, entry_ok f.slots (by omega)]
      rfl
    · rw [entry_ok f.slots (by omega)]
      rfl
  | mmx =>
    dsimp only
    rw [entry_ok f.slots (by omega)]
    rfl
  | sse =>
    have hwidth : r.width.bytes ≤ 32 := by cases r.width <;> decide
    dsimp only
    rw [entry_ok f.vectors r.code.isLt, ok_bind, leading_ok (by simpa using hwidth), ok_bind,
      leading_ok (Nat.min_le_left _ _), Nat.min_comm, ← List.take_eq_take_min]
    rfl

theorem set_eq (r : Register) (f : RegisterFile) (v : UInt64) : set r f v = .ok (r.set f v) := by
  unfold set Register.set
  cases r.bank with
  | general =>
    dsimp only
    split_ifs with h
    · rw [ownerCode_ok h, ok_bind, entry_ok f.slots (by omega), ok_bind, replaced_ok _ (by omega)]
      rfl
    · rw [ok_bind, entry_ok f.slots (by omega), ok_bind, replaced_ok _ (by omega)]
      rfl
  | mmx =>
    dsimp only
    rw [entry_ok f.slots (by omega), ok_bind, replaced_ok _ (by omega)]
    rfl
  | sse =>
    dsimp only
    rw [leading_ok (by simp), ok_bind, entry_ok f.vectors r.code.isLt, ok_bind,
      take_ofWord (Nat.min_le_right _ _), leading_ok (by simp)]
    rfl

theorem mnemonic_eq (r : Register) : mnemonic r = .ok r.mnemonic := by
  unfold mnemonic Register.mnemonic
  cases r.bank with
  | general =>
    dsimp only
    split_ifs with h
    · obtain ⟨-, hlt⟩ := Register.owner_lt h
      rw [ownerCode_ok h, ok_bind, Vector.getElem?_eq_getElem hlt]
      exact entry_ok _ hlt
    · cases r.width <;> exact entry_ok _ r.code.isLt
  | mmx | sse => rfl

/-! Memory. -/

def readWord (m : Memory) (a : UInt64) (w : Width) : Except Crash (Except Fault UInt64) :=
  match m.read a (min w.bytes 8) with
  | .error f => .ok (.error f)
  | .ok bytes => do
    let blank : List UInt8 := List.replicate 8 0
    let _ ← leading blank bytes.length
    return .ok (toWord (bytes ++ blank.drop bytes.length))

def writeWord (m : Memory) (a : UInt64) (w : Width) (v : UInt64) : Except Crash Memory := do
  let bytes ← leading (ofWord 8 v) (min w.bytes 8)
  return m.write a bytes

theorem readWord_eq (m : Memory) (a : UInt64) (w : Width) :
    readWord m a w = .ok (m.readWord a w) := by
  unfold readWord Memory.readWord
  change (match m.read a w.wordBytes with | .error f => _ | .ok bytes => _) = _
  cases h : m.read a w.wordBytes with
  | error f => rfl
  | ok bytes =>
    have hlength : bytes.length ≤ 8 := by
      rw [Memory.length_of_read h]
      exact Nat.min_le_right _ _
    dsimp only
    rw [leading_ok (by simpa using hlength), ok_bind, List.drop_replicate, toWord_append_zeros]
    rfl

theorem writeWord_eq (m : Memory) (a : UInt64) (w : Width) (v : UInt64) :
    writeWord m a w v = .ok (m.writeWord a w v) := by
  unfold writeWord Memory.writeWord Width.wordBytes
  rw [leading_ok (by simp), take_ofWord (by omega)]
  rfl

end Guarded

end LongMode
